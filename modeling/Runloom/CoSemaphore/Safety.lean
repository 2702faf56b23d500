import Runloom.CoSemaphore.Model
import Runloom.Transition.Ledger

/-!
# The cooperative semaphores: permits are conserved

A permit is in `_value`, or with a call: one that took it in a section of its own, or one whose flag `w[2]` was set by
a release.  A call leaves its loop when it has seen the flag, or after its ticket was made inactive under the guard,
or after `_cancelled` was set; and the section that sets `_cancelled` takes the queue away, which stays empty from
then on.
-/

namespace Runloom.CoSemaphore

open Transition Handoff List

variable {C : Type*} {cfg : Config C} {s t : State C} {c d : C} {p : Pc C} {x x' : Tickets C}

namespace Pc

def inLoop : Pc C → Bool
  | .entered _ | .test _ | .check _ | .clock _ | .waiting _ | .parked _ | .expired => true
  | _ => false

def out : Pc C → Bool
  | .leaving | .reading => true
  | _ => false

def won : Pc C → Bool
  | .settled .true | .returned .true => true
  | _ => false

def lost : Pc C → Bool
  | .settled .false | .returned .false => true
  | _ => false

def isReleasing : Pc C → Bool
  | .releasing .. => true
  | _ => false

end Pc

/-- What the place of a call says of its ticket. -/
structure Fits (x : Tickets C) (c : C) (p : Pc C) : Prop where
  won : p.won = true → c ∉ x.waiters
  lost : p.lost = true → x.granted c = false
  dead : p.inLoop = false → c ∈ x.waiters → x.active c = false
  fresh : p.inLoop = false → p.out = false → p.won = false → p.lost = false → x.granted c = false ∧ c ∉ x.waiters

def Holds (s : State C) (c : C) : Prop := s.tickets.granted c = true ∨ (s.pc c).won = true

structure Inv (cfg : Config C) (s : State C) : Prop where
  nonneg : 0 ≤ s.value
  idle : 0 < s.value → s.tickets.waiters = []
  cancelled : s.cancelled = true → s.tickets.waiters = []
  nodup : s.tickets.waiters.Nodup
  waits : ∀ c ∈ s.tickets.waiters, s.tickets.granted c = false
  fits : ∀ c, Fits s.tickets c (s.pc c)
  count : Counted (Holds s) (cfg.initial + s.released - s.value)
  bound : cfg.bounded = true → s.value ≤ cfg.initial
  base : cfg.bounded = true → ∀ c, (s.pc c).isReleasing = false

theorem Inv.init [DecidableEq C] (h : Init cfg s) : Inv cfg s where
  nonneg := by
    rw [h.value]
    exact h.initial
  idle _ := h.waiters
  cancelled _ := h.waiters
  nodup := by
    rw [h.waiters]
    exact nodup_nil
  waits c _ := h.granted c
  fits c := by
    rw [h.pc]
    refine ⟨nofun, nofun, fun _ hc => ?_, fun _ _ _ _ => ⟨h.granted c, ?_⟩⟩
    · rw [h.waiters] at hc
      cases hc
    · rw [h.waiters]
      exact not_mem_nil
  count := by
    rw [h.released, h.value, Int.add_zero, Int.sub_self]
    refine counted_zero fun c hc => ?_
    rcases hc with hc | hc
    · rw [h.granted] at hc
      cases hc
    · rw [h.pc] at hc
      cases hc
  bound _ := Int.le_of_eq h.value
  base _ c := by
    rw [h.pc]
    rfl

theorem Fits.shrink (h : Fits x c p) (hw : c ∈ x'.waiters → c ∈ x.waiters) (hg : x'.granted c = x.granted c)
    (ha : x.active c = false → x'.active c = false) : Fits x' c p where
  won hp := mt hw (h.won hp)
  lost hp := hg.trans (h.lost hp)
  dead hp hc := ha (h.dead hp (hw hc))
  fresh hl ho hw' hlost := ⟨hg.trans (h.fresh hl ho hw' hlost).1, mt hw (h.fresh hl ho hw' hlost).2⟩

variable [DecidableEq C]

theorem Inv.goto (hI : Inv cfg s) (hself : Fits s.tickets c p)
    (hholds : s.tickets.granted c = false → p.won = (s.pc c).won)
    (hbase : cfg.bounded = true → p.isReleasing = false) : Inv cfg (s.goto c p) where
  nonneg := hI.nonneg
  idle := hI.idle
  cancelled := hI.cancelled
  nodup := hI.nodup
  waits := hI.waits
  fits d := by
    by_cases hdc : d = c
    · subst hdc
      rw [State.goto_self]
      exact hself
    · rw [State.goto_of_ne _ _ hdc]
      exact hI.fits d
  count := by
    refine hI.count.congr fun d => ?_
    by_cases hdc : d = c
    · subst hdc
      unfold Holds
      rw [State.goto_self]
      rcases Bool.eq_false_or_eq_true (s.tickets.granted d) with hg | hg
      · exact iff_of_true (.inl hg) (.inl hg)
      · rw [hholds hg]
        rfl
    · unfold Holds
      rw [State.goto_of_ne _ _ hdc]
      rfl
  bound := hI.bound
  base hb d := by
    by_cases hdc : d = c
    · subst hdc
      rw [State.goto_self]
      exact hbase hb
    · rw [State.goto_of_ne _ _ hdc]
      exact hI.base hb d

theorem Inv.take (hI : Inv cfg s) (hpos : 0 < s.value) (hg : s.tickets.granted c = false)
    (hold : (s.pc c).won = false) (hp : p.won = true) :
    Inv cfg ({ s with value := s.value - 1 }.goto c p) := by
  have hloop : p.inLoop = false ∧ p.lost = false ∧ p.isReleasing = false := by
    cases p with
    | settled r | returned r => cases r <;> first | exact ⟨rfl, rfl, rfl⟩ | cases hp
    | _ => cases hp
  -- With a permit in the count nobody is queued, so the ticket books are as good as empty.
  have hempty := hI.idle hpos
  refine ⟨Int.sub_nonneg_of_le hpos, fun _ => hempty, hI.cancelled, hI.nodup, hI.waits, fun d => ?_, ?_,
    fun hb => ?_, fun hb d => ?_⟩
  · by_cases hdc : d = c
    · subst hdc
      rw [State.goto_self]
      refine ⟨fun _ => ?_, fun h => ?_, fun _ hc => ?_, fun _ _ h => ?_⟩
      · show d ∉ s.tickets.waiters
        rw [hempty]
        exact not_mem_nil
      · rw [hloop.2.1] at h
        cases h
      · have hc' : d ∈ s.tickets.waiters := hc
        rw [hempty] at hc'
        cases hc'
      · rw [hp] at h
        cases h
    · rw [State.goto_of_ne _ _ hdc]
      exact hI.fits d
  -- One holder more, one permit less in the count.
  · have hcount := hI.count.gain (x := c) (q := Holds ({ s with value := s.value - 1 }.goto c p)) ?_ fun d => ?_
    · rwa [show cfg.initial + s.released - s.value + 1 = cfg.initial + s.released - (s.value - 1) by omega] at hcount
    · unfold Holds
      rw [hg, hold]
      simp
    · by_cases hdc : d = c
      · subst hdc
        exact iff_of_true (.inr (by rw [State.goto_self]; exact hp)) (.inl rfl)
      · unfold Holds
        rw [State.goto_of_ne _ _ hdc, or_iff_right hdc]
        rfl
  · have := hI.bound hb
    show s.value - 1 ≤ cfg.initial
    omega
  · by_cases hdc : d = c
    · subst hdc
      rw [State.goto_self]
      exact hloop.2.2
    · rw [State.goto_of_ne _ _ hdc]
      exact hI.base hb d

theorem Inv.giveOne (hI : Inv cfg s) (hb : cfg.bounded = true → s.value + 1 ≤ cfg.initial) :
    Inv cfg s.giveOne.2 := by
  unfold State.giveOne
  rcases s.tickets.hand_cases with ⟨d, pre, rest, hl, -, hact, heq⟩ | ⟨-, heq⟩
  · rw [heq]
    have hmem : d ∈ s.tickets.waiters := by
      rw [hl]
      exact mem_append_right _ mem_cons_self
    have hrest : ∀ e ∈ rest, e ∈ s.tickets.waiters ∧ e ≠ d := by
      intro e he
      refine ⟨?_, ?_⟩
      · rw [hl]
        exact mem_append_right _ (mem_cons_of_mem d he)
      · rintro rfl
        have hnd := hI.nodup
        rw [hl] at hnd
        exact (nodup_cons.mp (nodup_append.mp hnd).2.1).1 he
    have hwaits := hI.waits d hmem
    -- The one that is given the permit is in its loop, since its ticket is alive.
    have hloop : (s.pc d).inLoop = true := by
      by_contra h
      rw [(hI.fits d).dead (Bool.eq_false_iff.mpr h) hmem] at hact
      cases hact
    have hwon : (s.pc d).won = false := by
      rw [Bool.eq_false_iff]
      exact fun h => (hI.fits d).won h hmem
    -- Somebody waits, so the count is zero and stays so.
    have hzero : ¬0 < s.value := fun h => by
      rw [hI.idle h] at hmem
      cases hmem
    refine ⟨hI.nonneg, fun h => absurd h hzero, fun h => ?_, ?_, fun e he => ?_, fun e => ?_, ?_, hI.bound, hI.base⟩
    · rw [hI.cancelled h] at hmem
      cases hmem
    · have hnd := hI.nodup
      rw [hl] at hnd
      exact (nodup_cons.mp (nodup_append.mp hnd).2.1).2
    · show update s.tickets.granted d true e = false
      rw [update_of_ne (hrest e he).2]
      exact hI.waits e (hrest e he).1
    · by_cases hed : e = d
      · subst hed
        refine ⟨fun h => ?_, fun h => ?_, fun h => ?_, fun h => ?_⟩
        · rw [show (_ : State C).pc e = s.pc e from rfl, hwon] at h
          cases h
        · have hlost : (s.pc e).lost = true := h
          cases hpe : s.pc e with
          | settled r | returned r =>
            rw [hpe] at hloop
            cases hloop
          | _ =>
            rw [hpe] at hlost
            cases hlost
        all_goals
          rw [show (_ : State C).pc e = s.pc e from rfl, hloop] at h
          cases h
      · exact (hI.fits e).shrink (fun he => (hrest e he).1) (update_of_ne hed ..) id
    -- The permit has a holder at once: it is never in the count.
    · have hcount := hI.count.gain (x := d) (q := Holds { s with
          tickets := { s.tickets with waiters := rest, granted := update s.tickets.granted d true }
          released := s.released + 1 }) ?_ fun e => ?_
      · rwa [show cfg.initial + s.released - s.value + 1 = cfg.initial + (s.released + 1) - s.value by omega] at hcount
      · unfold Holds
        rw [hwaits, hwon]
        simp
      · by_cases hed : e = d
        · subst hed
          exact iff_of_true (.inl (update_self ..)) (.inl rfl)
        · unfold Holds
          show update s.tickets.granted d true e = true ∨ _ ↔ _
          rw [update_of_ne hed, or_iff_right hed]
  · rw [heq]
    -- Nobody is active: the queue is dropped, and the permit goes back.
    refine ⟨Int.add_nonneg hI.nonneg Int.one_nonneg, fun _ => rfl, fun _ => rfl, nodup_nil, nofun, fun e => ?_, ?_,
      hb, hI.base⟩
    · exact (hI.fits e).shrink nofun rfl id
    · have hcount := hI.count
      rwa [show cfg.initial + s.released - s.value = cfg.initial + (s.released + 1) - (s.value + 1) by omega] at hcount

theorem giveOne_value : s.giveOne.2.value ≤ s.value + 1 := by
  unfold State.giveOne
  rcases s.tickets.hand_cases with ⟨d, pre, rest, -, -, -, heq⟩ | ⟨-, heq⟩
  · rw [heq]
    exact Int.le_add_of_nonneg_right Int.one_nonneg
  · rw [heq]

theorem giveOne_pc : s.giveOne.2.pc = s.pc := by
  unfold State.giveOne
  split <;> rfl

theorem Inv.give {n : ℕ} {l : List C} (hI : Inv cfg s) (hb : cfg.bounded = true → s.value + n ≤ cfg.initial) :
    Inv cfg (State.give n s l).1 ∧ (State.give n s l).1.pc = s.pc := by
  induction n generalizing s l with
  | zero => exact ⟨hI, rfl⟩
  | succ n ih =>
    have hone := hI.giveOne fun h => by
      have := hb h
      push_cast at this
      omega
    have hnext : cfg.bounded = true → s.giveOne.2.value + n ≤ cfg.initial := fun h => by
      have := hb h
      have := giveOne_value (s := s)
      push_cast at *
      omega
    have hpc := giveOne_pc (s := s)
    unfold State.give
    split
    next d s' heq =>
      rw [heq] at hone hnext hpc
      obtain ⟨hI', hpc'⟩ := ih (l := l ++ [d]) hone hnext
      exact ⟨hI', hpc'.trans hpc⟩
    next s' heq =>
      rw [heq] at hone hnext hpc
      obtain ⟨hI', hpc'⟩ := ih (l := l) hone hnext
      exact ⟨hI', hpc'.trans hpc⟩

/-! ## The steps -/

theorem Inv.moveFresh (hI : Inv cfg s) (hfresh : s.tickets.granted c = false ∧ c ∉ s.tickets.waiters)
    (hold : (s.pc c).won = false) (hwon : p.won = false) (hbase : cfg.bounded = true → p.isReleasing = false) :
    Inv cfg (s.goto c p) := by
  refine hI.goto ⟨fun h => ?_, fun _ => hfresh.1, fun _ hc => absurd hc hfresh.2, fun _ _ _ _ => hfresh⟩
    (fun _ => hwon.trans hold.symm) hbase
  rw [hwon] at h
  cases h

theorem Inv.moveLoop (hI : Inv cfg s) (hold : (s.pc c).won = false)
    (hp : p.inLoop = true ∨ p.out = true ∧ (c ∈ s.tickets.waiters → s.tickets.active c = false)) :
    Inv cfg (s.goto c p) := by
  have hplace : p.won = false ∧ p.lost = false ∧ p.isReleasing = false := by
    cases p with
    | settled r | returned r | releasing n woke => rcases hp with h | ⟨h, -⟩ <;> cases h
    | _ => exact ⟨rfl, rfl, rfl⟩
  obtain ⟨hwon, hlost, hbase⟩ := hplace
  refine hI.goto ⟨fun h => ?_, fun h => ?_, fun hl hc => ?_, fun hl ho => ?_⟩ (fun _ => hwon.trans hold.symm)
    fun _ => hbase
  · rw [hwon] at h
    cases h
  · rw [hlost] at h
    cases h
  · rcases hp with h | ⟨-, h⟩
    · rw [hl] at h
      cases h
    · exact h hc
  · rcases hp with h | ⟨h, -⟩
    · rw [hl] at h
      cases h
    · rw [ho] at h
      cases h

theorem Inv.unparkAll (hI : Inv cfg s) {woke : List C}
    (hfresh : s.tickets.granted c = false ∧ c ∉ s.tickets.waiters) (hold : (s.pc c).won = false) :
    Inv cfg (s.unparkAll c woke) := by
  unfold State.unparkAll
  split <;> exact hI.moveFresh hfresh hold rfl fun _ => rfl

theorem give_fresh {n : ℕ} {l : List C} (h : s.tickets.granted c = false ∧ c ∉ s.tickets.waiters) :
    (State.give n s l).1.tickets.granted c = false ∧ c ∉ (State.give n s l).1.tickets.waiters := by
  induction n generalizing s l with
  | zero => exact h
  | succ n ih =>
    have hone : s.giveOne.2.tickets.granted c = false ∧ c ∉ s.giveOne.2.tickets.waiters := by
      unfold State.giveOne
      rcases s.tickets.hand_cases with ⟨d, pre, rest, hl, -, -, heq⟩ | ⟨-, heq⟩
      · rw [heq]
        rw [hl] at h
        have hcd : c ≠ d := by
          rintro rfl
          exact h.2 (mem_append_right _ mem_cons_self)
        refine ⟨?_, fun hc => h.2 (mem_append_right _ (mem_cons_of_mem d hc))⟩
        show update s.tickets.granted d true c = false
        rw [update_of_ne hcd]
        exact h.1
      · rw [heq]
        exact ⟨h.1, not_mem_nil⟩
    unfold State.give
    split
    next d s' heq =>
      rw [heq] at hone
      exact ih hone
    next s' heq =>
      rw [heq] at hone
      exact ih hone

section

variable (hI : Inv cfg s)
include hI

theorem Inv.release (hpc : s.pc c = .idle) (n : ℤ) : Inv cfg (s.release cfg c n) := by
  have hfits := hI.fits c
  rw [hpc] at hfits
  have hfresh := hfits.fresh rfl rfl rfl rfl
  have hold : (s.pc c).won = false := by
    rw [hpc]
    rfl
  unfold State.release
  split
  next hb =>
    split
    next => exact hI.moveFresh hfresh hold rfl fun _ => rfl
    next hle =>
      have hgive := hI.give (n := n.toNat) (l := []) fun hb' => by
        have := hI.bound hb'
        omega
      obtain ⟨hI', hpc'⟩ := hgive
      have hfresh' := give_fresh (n := n.toNat) (l := []) hfresh
      apply hI'.unparkAll hfresh'
      rw [hpc', hpc]
      rfl
  next hb =>
    refine hI.moveFresh hfresh hold rfl fun h => absurd h hb

theorem Inv.call (hpc : s.pc c = .idle) (k : Call) : Inv cfg (s.call cfg c k) := by
  have hfits := hI.fits c
  rw [hpc] at hfits
  have hfresh := hfits.fresh rfl rfl rfl rfl
  have hold : (s.pc c).won = false := by
    rw [hpc]
    rfl
  have hmove : ∀ {p : Pc C}, p.won = false → p.isReleasing = false → Inv cfg (s.goto c p) :=
    fun hwon hbase => hI.moveFresh hfresh hold hwon fun _ => hbase
  cases k with
  | acquire blocking timeout =>
    simp only [State.call]
    split
    next hpos => exact hI.take hpos hfresh.1 hold rfl
    split
    · exact hmove rfl rfl
    split
    · exact hmove rfl rfl
    split <;> exact hmove rfl rfl
  | release n => exact hI.release hpc n
  | cancelAll =>
    have hswept : Inv cfg { s with cancelled := true, tickets := { s.tickets with waiters := [] } } :=
      ⟨hI.nonneg, fun _ => rfl, fun _ => rfl, nodup_nil, nofun, fun d => (hI.fits d).shrink nofun rfl id,
        hI.count, hI.bound, hI.base⟩
    exact hswept.moveFresh ⟨hfresh.1, not_mem_nil⟩ hold rfl fun _ => rfl

theorem Inv.enqueue {timeout : Option ℤ} (hpc : s.pc c = .building timeout) : Inv cfg (s.enqueue c timeout) := by
  have hfits := hI.fits c
  rw [hpc] at hfits
  have hfresh := hfits.fresh rfl rfl rfl rfl
  have hold : (s.pc c).won = false := by
    rw [hpc]
    rfl
  unfold State.enqueue
  split
  next hpos => exact hI.take hpos hfresh.1 hold rfl
  split
  next => exact hI.moveFresh hfresh hold rfl fun _ => rfl
  next hpos hcancelled =>
    -- The new ticket is not granted, like the old mark of the call.
    have hgranted : ∀ d, (s.tickets.append c).granted d = s.tickets.granted d := by
      intro d
      by_cases hdc : d = c
      · subst hdc
        rw [hfresh.1]
        exact update_self ..
      · exact update_of_ne hdc ..
    have hmem : ∀ d, d ≠ c → d ∈ (s.tickets.append c).waiters → d ∈ s.tickets.waiters := by
      intro d hdc hd
      exact (mem_append.mp hd).resolve_right fun h => hdc (mem_singleton.mp h)
    refine ⟨hI.nonneg, fun h => absurd h hpos, fun h => absurd h hcancelled, ?_, fun d hd => ?_, fun d => ?_, ?_,
      hI.bound, fun hb d => ?_⟩
    · refine nodup_append'.mpr ⟨hI.nodup, nodup_singleton c, fun d hd hdc => ?_⟩
      exact hfresh.2 (mem_singleton.mp hdc ▸ hd)
    · show (s.tickets.append c).granted d = false
      rw [hgranted]
      by_cases hdc : d = c
      · rw [hdc]
        exact hfresh.1
      · exact hI.waits d (hmem d hdc hd)
    · by_cases hdc : d = c
      · subst hdc
        rw [State.goto_self]
        exact ⟨nofun, nofun, nofun, nofun⟩
      · rw [State.goto_of_ne _ _ hdc]
        refine (hI.fits d).shrink (hmem d hdc) (hgranted d) fun h => ?_
        show update s.tickets.active c true d = false
        rwa [update_of_ne hdc]
    -- To queue is not to hold.
    · refine hI.count.congr fun d => ?_
      unfold Holds
      rw [show (_ : State C).tickets.granted d = s.tickets.granted d from hgranted d]
      by_cases hdc : d = c
      · subst hdc
        rw [State.goto_self, hold]
        rfl
      · rw [State.goto_of_ne _ _ hdc]
    · by_cases hdc : d = c
      · subst hdc
        rw [State.goto_self]
        rfl
      · rw [State.goto_of_ne _ _ hdc]
        exact hI.base hb d

theorem Inv.deactivate : Inv cfg { s with tickets := s.tickets.deactivate d } := by
  refine ⟨hI.nonneg, hI.idle, hI.cancelled, hI.nodup, hI.waits, fun c => (hI.fits c).shrink id rfl fun h => ?_,
    hI.count, hI.bound, hI.base⟩
  show update s.tickets.active d false c = false
  by_cases hcd : c = d
  · rw [hcd, update_self]
  · rwa [update_of_ne hcd]

theorem Inv.expire (hpc : s.pc c = .expired) : Inv cfg (s.expire c) := by
  have hold : (s.pc c).won = false := by
    rw [hpc]
    rfl
  unfold State.expire
  split
  next hg =>
    refine hI.moveLoop hold (.inr ⟨rfl, fun hc => ?_⟩)
    rw [hI.waits c hc] at hg
    cases hg
  next => exact hI.deactivate.moveLoop hold (.inr ⟨rfl, fun _ => update_self ..⟩)

theorem Inv.read (hpc : s.pc c = .reading) :
    Inv cfg (s.goto c (.returned (if s.tickets.granted c then .true else .false))) := by
  have hfits := hI.fits c
  rw [hpc] at hfits
  split
  next hg =>
    refine hI.goto ⟨fun _ hc => ?_, nofun, fun _ => hfits.dead rfl, nofun⟩ (fun h => ?_) fun _ => rfl
    · rw [hI.waits c hc] at hg
      cases hg
    · rw [hg] at h
      cases h
  next hg =>
    have hg' := Bool.eq_false_iff.mpr hg
    refine hI.goto ⟨nofun, fun _ => hg', fun _ => hfits.dead rfl, nofun⟩ (fun _ => ?_) fun _ => rfl
    rw [hpc]
    rfl

omit [DecidableEq C] in
theorem Inv.congr (hv : t.value = s.value) (hx : t.tickets = s.tickets)
    (hc : t.cancelled = s.cancelled) (hpc : t.pc = s.pc) (hr : t.released = s.released) : Inv cfg t := by
  refine ⟨?_, ?_, ?_, ?_, ?_, fun c => ?_, ?_, ?_, ?_⟩
  · rw [hv]
    exact hI.nonneg
  · rw [hv, hx]
    exact hI.idle
  · rw [hc, hx]
    exact hI.cancelled
  · rw [hx]
    exact hI.nodup
  · rw [hx]
    exact hI.waits
  · rw [hx, hpc]
    exact hI.fits c
  · rw [hr, hv]
    refine hI.count.congr fun c => ?_
    unfold Holds
    rw [hx, hpc]
  · rw [hv]
    exact hI.bound
  · rw [hpc]
    exact hI.base

theorem Inv.releaseOne {n : ℕ} {woke : List C} (hpc : s.pc c = .releasing (n + 1) woke) :
    Inv cfg (s.releaseOne c n woke) := by
  have hb : cfg.bounded = true → False := fun hb => by
    have := hI.base hb c
    rw [hpc] at this
    cases this
  have hfits := hI.fits c
  rw [hpc] at hfits
  have hfresh := give_fresh (n := 1) (l := []) (hfits.fresh rfl rfl rfl rfl)
  have hone := hI.giveOne fun h => (hb h).elim
  have hpc' := giveOne_pc (s := s)
  unfold State.releaseOne
  simp only [State.give] at hfresh
  split
  next d s' heq =>
    rw [heq] at hone hpc' hfresh
    refine hone.moveFresh hfresh ?_ rfl fun h => (hb h).elim
    rw [hpc', hpc]
    rfl
  next s' heq =>
    rw [heq] at hone hpc' hfresh
    refine hone.moveFresh hfresh ?_ rfl fun h => (hb h).elim
    rw [hpc', hpc]
    rfl

omit [DecidableEq C] in
theorem Inv.fresh (hpc : s.pc c = p) (hl : p.inLoop = false) (ho : p.out = false)
    (hw : p.won = false) (hlost : p.lost = false) :
    (s.tickets.granted c = false ∧ c ∉ s.tickets.waiters) ∧ (s.pc c).won = false := by
  subst hpc
  exact ⟨(hI.fits c).fresh hl ho hw hlost, hw⟩

theorem Inv.next (h : s.next c = some t) : Inv cfg t := by
  unfold State.next at h
  split at h
  · cases h
  -- A foreign call without a ticket: it polls the count, and naps.
  next timeout hpc =>
    cases h
    obtain ⟨hfresh, hold⟩ := hI.fresh hpc rfl rfl rfl rfl
    exact hI.moveFresh hfresh hold rfl fun _ => rfl
  -- The poll takes a permit, if there is one.
  next deadline hpc =>
    cases h
    obtain ⟨hfresh, hold⟩ := hI.fresh hpc rfl rfl rfl rfl
    unfold State.poll
    split
    next hpos => exact hI.take hpos hfresh.1 hold rfl
    next => exact hI.moveFresh hfresh hold rfl fun _ => rfl
  next deadline hpc =>
    cases h
    obtain ⟨hfresh, hold⟩ := hI.fresh hpc rfl rfl rfl rfl
    split <;> exact hI.moveFresh hfresh hold rfl fun _ => rfl
  -- The section that builds the ticket.
  next timeout hpc =>
    cases h
    exact hI.enqueue hpc
  next timeout hpc =>
    cases h
    exact hI.moveLoop (by rw [hpc]; rfl) (.inl rfl)
  -- The read of `w[2]`: a granted call is in no queue any more.
  next deadline hpc =>
    cases h
    split
    next hg =>
      refine hI.moveLoop (by rw [hpc]; rfl) (.inr ⟨rfl, fun hc => ?_⟩)
      rw [hI.waits c hc] at hg
      cases hg
    next => exact hI.moveLoop (by rw [hpc]; rfl) (.inl rfl)
  next deadline hpc =>
    cases h
    split
    next hcancelled =>
      -- The queue was taken away with the flag, and stays empty.
      refine hI.moveLoop (by rw [hpc]; rfl) (.inr ⟨rfl, fun hc => ?_⟩)
      rw [hI.cancelled hcancelled] at hc
      cases hc
    next =>
      cases deadline with
      | none | some d => exact hI.moveLoop (by rw [hpc]; rfl) (.inl rfl)
  next d hpc =>
    cases h
    split <;> (exact hI.moveLoop (by rw [hpc]; rfl) (.inl rfl))
  -- A credit that is eaten before the park, or by it, is nobody's permit.
  next deadline hpc =>
    cases h
    split
    · have hmoved : Inv cfg (s.goto c (.test deadline)) := hI.moveLoop (by rw [hpc]; rfl) (.inl rfl)
      exact hmoved.congr rfl rfl rfl rfl rfl
    · exact hI.moveLoop (by rw [hpc]; rfl) (.inl rfl)
  next deadline hpc =>
    cases h
    have hmoved : Inv cfg (s.goto c (.test deadline)) := hI.moveLoop (by rw [hpc]; rfl) (.inl rfl)
    exact hmoved.congr rfl rfl rfl rfl rfl
  -- The section at the deadline.
  next hpc =>
    cases h
    exact hI.expire hpc
  -- Out of the loop, the call reads `w[2]` once more.
  next hpc =>
    cases h
    have hfits := hI.fits c
    rw [hpc] at hfits
    have hmoved : Inv cfg (s.goto c .reading) :=
      hI.moveLoop (by rw [hpc]; rfl) (.inr ⟨rfl, hfits.dead rfl⟩)
    exact hmoved.congr rfl rfl rfl rfl rfl
  next hpc =>
    cases h
    exact hI.read hpc
  next r hpc =>
    cases h
    have hfits := hI.fits c
    rw [hpc] at hfits
    have hmoved : Inv cfg (s.goto c (.returned r)) := by
      refine hI.goto ?_ (fun _ => ?_) fun _ => rfl
      · cases r <;> exact ⟨hfits.won, hfits.lost, hfits.dead, hfits.fresh⟩
      · rw [hpc]
        cases r <;> rfl
    exact hmoved.congr rfl rfl rfl rfl rfl
  -- The plain `release`, a permit at a time.
  next n woke hpc =>
    cases h
    exact hI.releaseOne hpc
  next woke hpc =>
    cases h
    obtain ⟨hfresh, hold⟩ := hI.fresh hpc rfl rfl rfl rfl
    exact hI.unparkAll hfresh hold
  -- `cancel_all` goes through the list that it took, and finds each ticket active or not.
  next w ws woke hpc =>
    cases h
    obtain ⟨hfresh, hold⟩ := hI.fresh hpc rfl rfl rfl rfl
    split <;> exact hI.moveFresh hfresh hold rfl fun _ => rfl
  next woke hpc =>
    cases h
    obtain ⟨hfresh, hold⟩ := hI.fresh hpc rfl rfl rfl rfl
    exact hI.unparkAll hfresh hold
  next w ws woke hpc =>
    cases h
    obtain ⟨hfresh, hold⟩ := hI.fresh hpc rfl rfl rfl rfl
    exact hI.deactivate.moveFresh hfresh hold rfl fun _ => rfl
  -- The handles of the woken parkers are collected, and woken in turn.
  next q parkers got hpc =>
    cases h
    obtain ⟨hfresh, hold⟩ := hI.fresh hpc rfl rfl rfl rfl
    exact hI.moveFresh hfresh hold rfl fun _ => rfl
  next got hpc =>
    cases h
    obtain ⟨hfresh, hold⟩ := hI.fresh hpc rfl rfl rfl rfl
    exact hI.moveFresh hfresh hold rfl fun _ => rfl
  next q handles hpc =>
    cases h
    obtain ⟨hfresh, hold⟩ := hI.fresh hpc rfl rfl rfl rfl
    have hmoved : Inv cfg (s.goto c (.waking handles)) := hI.moveFresh hfresh hold rfl fun _ => rfl
    exact hmoved.congr rfl rfl rfl rfl rfl
  next hpc =>
    cases h
    obtain ⟨hfresh, hold⟩ := hI.fresh hpc rfl rfl rfl rfl
    exact hI.moveFresh hfresh hold rfl fun _ => rfl
  next => cases h

theorem Inv.step {a : Action C} (h : CoSemaphore.step cfg s a = some t) : Inv cfg t := by
  cases a with
  | call c k =>
    simp only [CoSemaphore.step] at h
    split at h <;> cases h
    next hpc => exact hI.call hpc k
  | next c => exact hI.next h
  | elsewhere c | poke c | tick d =>
    cases h
    exact hI.congr rfl rfl rfl rfl rfl

end

theorem inv_of_reachable (h : (semaphore cfg).Reachable s) : Inv cfg s :=
  h.invariant (fun _ hs => Inv.init hs) fun _ _ _ hI _ hs => hI.step hs

def unused : State (Fin 4) := ⟨1, ⟨[], fun _ => false, fun _ => false⟩, false, fun _ => false, fun _ => 0,
  fun _ => .idle, 0, 0⟩

end Runloom.CoSemaphore
