import Runloom.CoFMutex.Model
import Runloom.Handoff.WaitList

/-!
# The foreign-safe cooperative mutex: one owner

The place of a call says what has become of it: whether it is in the queue with an active ticket, whether the
mutex was given to it, whether it has given up.  Every section keeps this for all calls, and with it that the
mutex is locked exactly while one call has it.
-/

namespace Runloom.CoFMutex

open Transition Handoff List

variable {C : Type*}

namespace Pc

def inLoop : Pc C → Bool
  | .entered _ | .look _ | .clock _ | .waiting _ | .parked _ | .expired => true
  | _ => false

/-- The call returns `True`, once its parker is released. -/
def won : Pc C → Bool
  | .leaving .true | .returned .true => true
  | _ => false

/-- The call returns `False`, once its parker is released. -/
def lost : Pc C → Bool
  | .leaving .false | .returned .false => true
  | _ => false

end Pc

structure Fits (x : Tickets C) (arrivals : List C) (log : List (Event C)) (c : C) (p : Pc C) : Prop where
  loop : p.inLoop = true → c ∈ arrivals ∧ x.active c = true ∧ (Event.acquired c ∈ log → x.granted c = true)
  won : p.won = true → Event.acquired c ∈ log
  other : p.inLoop = false → p.won = false → Event.acquired c ∉ log
  live : p.inLoop = false → c ∈ x.waiters → x.active c = false
  fresh : p.inLoop = false → p.won = false → p.lost = false → c ∉ arrivals

structure Inv (s : State C) : Prop where
  ordered : Ordered s.tickets s.arrivals
  fits : ∀ c, Fits s.tickets s.arrivals s.log c (s.pc c)
  granted : ∀ c, s.tickets.granted c = true → Event.acquired c ∈ s.log
  free : s.locked = false → s.tickets.waiters = []
  owner : (owners s.log).length = if s.locked then 1 else 0
  gone : ∀ c, s.gone c = true → ∃ r, s.pc c = .returned r
  woken : ∀ c, (s.pc c).asleep = true → s.tickets.granted c = true → Reached Pc.toWake [] s.credit s.pc c

variable {s t : State C} {c d : C} {p : Pc C} {x : Tickets C} {arrivals : List C} {log : List (Event C)}

theorem owners_acquired : owners (log ++ [Event.acquired c]) = owners log ++ [c] := by
  unfold owners
  rw [foldl_append]
  rfl

theorem owners_released : owners (log ++ [Event.released]) = (owners log).tail := by
  unfold owners
  rw [foldl_append]
  rfl

theorem Inv.init (h : Init s) : Inv s where
  ordered := by
    rw [h.arrivals]
    exact ordered_nil h.waiters h.granted
  fits c := by
    rw [h.pc, h.log, h.arrivals]
    refine ⟨nofun, nofun, fun _ _ => not_mem_nil, fun _ hc => ?_, fun _ _ _ => not_mem_nil⟩
    rw [h.waiters] at hc
    cases hc
  granted c hc := by
    rw [h.granted] at hc
    cases hc
  free _ := h.waiters
  owner := by
    rw [h.log, h.locked]
    rfl
  gone c hc := by
    rw [h.gone] at hc
    cases hc
  woken c hc := by
    rw [h.pc] at hc
    cases hc

theorem Inv.inLoop (hI : Inv s) (hmem : c ∈ s.tickets.waiters) (hact : s.tickets.active c = true) :
    (s.pc c).inLoop = true := by
  by_contra hloop
  have := (hI.fits c).live (Bool.eq_false_iff.mpr hloop) hmem
  rw [hact] at this
  cases this

/-! ## What one section does to the calls outside it -/

theorem Fits.acquired (h : Fits x arrivals log c p) (hdc : d ≠ c) :
    Fits x arrivals (log ++ [Event.acquired d]) c p := by
  have hmem : Event.acquired c ∈ log ++ [Event.acquired d] ↔ Event.acquired c ∈ log := by
    rw [mem_append, mem_singleton, Event.acquired.injEq, or_iff_left (Ne.symm hdc)]
  refine ⟨fun hp => ?_, fun hp => hmem.mpr (h.won hp), fun hl hw => mt hmem.mp (h.other hl hw), h.live, h.fresh⟩
  obtain ⟨hq, ha, hg⟩ := h.loop hp
  exact ⟨hq, ha, fun hacq => hg (hmem.mp hacq)⟩

theorem Fits.released (h : Fits x arrivals log c p) : Fits x arrivals (log ++ [Event.released]) c p := by
  have hmem : Event.acquired c ∈ log ++ [Event.released] ↔ Event.acquired c ∈ log := by
    rw [mem_append, mem_singleton, or_iff_left nofun]
  refine ⟨fun hp => ?_, fun hp => hmem.mpr (h.won hp), fun hl hw => mt hmem.mp (h.other hl hw), h.live, h.fresh⟩
  obtain ⟨hq, ha, hg⟩ := h.loop hp
  exact ⟨hq, ha, fun hacq => hg (hmem.mp hacq)⟩

variable [DecidableEq C]

section

variable (h : Fits x arrivals log c p)
include h

theorem Fits.append (hdc : d ≠ c) : Fits (x.append d) (arrivals ++ [d]) log c p := by
  have hmem : ∀ l : List C, c ∈ l ++ [d] ↔ c ∈ l := fun l => by
    rw [mem_append, mem_singleton, or_iff_left (Ne.symm hdc)]
  have hact : (x.append d).active c = x.active c := update_of_ne (Ne.symm hdc) ..
  have hgr : (x.append d).granted c = x.granted c := update_of_ne (Ne.symm hdc) ..
  refine ⟨fun hp => ?_, h.won, h.other, fun hp hc => ?_, fun hp hw hl => ?_⟩
  · rw [hmem, hact, hgr]
    exact h.loop hp
  · rw [hact]
    exact h.live hp ((hmem _).mp hc)
  · rw [hmem]
    exact h.fresh hp hw hl

theorem Fits.deactivate (hdc : d ≠ c) : Fits (x.deactivate d) arrivals log c p := by
  have hact : (x.deactivate d).active c = x.active c := update_of_ne (Ne.symm hdc) ..
  refine ⟨fun hp => ?_, h.won, h.other, fun hp hc => ?_, h.fresh⟩
  · rw [hact]
    exact h.loop hp
  · rw [hact]
    exact h.live hp hc

theorem Fits.hand {pre rest : List C} (hl : x.waiters = pre ++ d :: rest) (hd : c = d → p.inLoop = true) :
    Fits { x with waiters := rest, granted := update x.granted d true } arrivals
      (log ++ [Event.released, Event.acquired d]) c p := by
  have hsub : ∀ e ∈ rest, e ∈ x.waiters := fun e he => by
    rw [hl]
    exact mem_append_right _ (mem_cons_of_mem d he)
  rw [show log ++ [Event.released, Event.acquired d] = log ++ [Event.released] ++ [Event.acquired d] by simp]
  by_cases hcd : c = d
  · subst hcd
    have hloop := hd rfl
    obtain ⟨hq, ha, -⟩ := h.loop hloop
    refine ⟨fun _ => ⟨hq, ha, fun _ => update_self ..⟩, fun _ => ?_, fun hp => ?_, fun hp => ?_, fun hp => ?_⟩
    · exact mem_append_right _ (mem_singleton_self _)
    all_goals
      rw [hloop] at hp
      cases hp
  · have h' := h.released.acquired (d := d) (Ne.symm hcd)
    refine ⟨fun hp => ?_, h'.won, h'.other, fun hp hc => h'.live hp (hsub c hc), h'.fresh⟩
    obtain ⟨hq, ha, hg⟩ := h'.loop hp
    refine ⟨hq, ha, fun hacq => ?_⟩
    show update x.granted d true c = true
    rw [update_of_ne hcd]
    exact hg hacq

end

theorem Inv.goto (hI : Inv s) {locked : Bool} (hordered : Ordered x arrivals)
    (hfits : ∀ d, d ≠ c → Fits x arrivals log d (s.pc d)) (hself : Fits x arrivals log c p)
    (hgranted : ∀ d, x.granted d = true → Event.acquired d ∈ log) (hfree : locked = false → x.waiters = [])
    (howner : (owners log).length = if locked then 1 else 0) (hgone : s.gone c = false)
    (hwake : ∀ d, (s.pc d).asleep = true → s.tickets.granted d = true → d ∈ (s.pc c).toWake → d ∈ p.toWake)
    (hnew : ∀ d, d ≠ c → (s.pc d).asleep = true → x.granted d = true → s.tickets.granted d = true ∨ d ∈ p.toWake)
    (hsleep : p.asleep = true → x.granted c = true → (s.pc c).asleep = true ∧ s.tickets.granted c = true) :
    Inv ({ s with locked := locked, tickets := x, arrivals := arrivals, log := log }.goto c p) where
  ordered := hordered
  fits d := by
    by_cases hdc : d = c
    · subst hdc
      rw [State.goto_self]
      exact hself
    · rw [State.goto_of_ne _ _ hdc]
      exact hfits d hdc
  granted := hgranted
  free := hfree
  owner := howner
  gone d hd := by
    have hdc : d ≠ c := by
      rintro rfl
      rw [show s.gone d = true from hd] at hgone
      cases hgone
    rw [State.goto_of_ne _ _ hdc]
    exact hI.gone d hd
  woken d hd hg := by
    -- Who was granted before keeps the wake that it is owed.
    have hkeep : (s.pc d).asleep = true → s.tickets.granted d = true →
        Reached Pc.toWake [] s.credit (update s.pc c p) d :=
      fun ha hg => (hI.woken d ha hg).move (fun h => by cases h) (hwake d ha hg)
    by_cases hdc : d = c
    · subst hdc
      rw [State.goto_self] at hd
      obtain ⟨ha, hg⟩ := hsleep hd hg
      exact hkeep ha hg
    · rw [State.goto_of_ne _ _ hdc] at hd
      -- A grant of this section comes with a wake that `c` still has to make.
      rcases hnew d hdc hd hg with hg | hmem
      · exact hkeep hd hg
      · right
        right
        refine ⟨c, ?_⟩
        show d ∈ (update s.pc c p c).toWake
        rwa [update_self]

theorem Inv.move (hI : Inv s) (hgone : s.gone c = false) (hwake : (s.pc c).toWake = [])
    (hself : Fits s.tickets s.arrivals s.log c p)
    (hsleep : p.asleep = true → s.tickets.granted c = true → (s.pc c).asleep = true) : Inv (s.goto c p) := by
  refine hI.goto hI.ordered (fun d _ => hI.fits d) hself hI.granted hI.free hI.owner hgone (fun d _ _ hd => ?_)
    (fun d _ _ hg => .inl hg) fun hp hg => ⟨hsleep hp hg, hg⟩
  rw [hwake] at hd
  cases hd

omit [DecidableEq C] in
theorem Inv.not_gone (hI : Inv s) (h : ∀ r, s.pc c ≠ .returned r) : s.gone c = false := by
  rw [Bool.eq_false_iff]
  intro hg
  obtain ⟨r, hr⟩ := hI.gone c hg
  exact h r hr

/-! ## The sections -/

section

variable (hI : Inv s)
include hI

theorem Inv.take (hpc : s.pc c = .idle ∨ ∃ timeout, s.pc c = .building timeout)
    (hfree : s.locked = false) (hwon : p.won = true) : Inv (s.take c p) := by
  have hfits := hI.fits c
  have hplace : (s.pc c).inLoop = false ∧ (s.pc c).won = false ∧ (s.pc c).lost = false ∧
      (s.pc c).toWake = [] ∧ ∀ r, s.pc c ≠ .returned r := by
    rcases hpc with h | ⟨timeout, h⟩ <;> rw [h] <;> exact ⟨rfl, rfl, rfl, rfl, nofun⟩
  obtain ⟨hloop, hnwon, hnlost, hwake, hret⟩ := hplace
  have hp : p.inLoop = false ∧ p.asleep = false := by
    cases p with
    | leaving r | returned r => exact ⟨rfl, rfl⟩
    | _ => cases hwon
  have hmem : Event.acquired c ∈ s.log ++ [Event.acquired c] :=
    mem_append_right _ (mem_singleton_self _)
  refine hI.goto hI.ordered (fun d hd => (hI.fits d).acquired (Ne.symm hd)) ?_ (fun d hd => ?_) nofun ?_
    (hI.not_gone hret) (fun d _ _ hd => ?_) (fun d _ _ hg => .inl hg) (fun h => ?_)
  · refine ⟨fun h => ?_, fun _ => hmem, fun _ h => ?_, fun _ => hfits.live hloop, fun _ h => ?_⟩
    · rw [hp.1] at h
      cases h
    · rw [hwon] at h
      cases h
    · rw [hwon] at h
      cases h
  · exact mem_append_left _ (hI.granted d hd)
  -- The mutex was free, so nobody owned it.
  · have hnone : owners s.log = [] := by
      apply eq_nil_of_length_eq_zero
      rw [hI.owner, hfree]
      rfl
    rw [owners_acquired, hnone]
    rfl
  · rw [hwake] at hd
    cases hd
  · rw [hp.2] at h
    cases h

theorem Inv.release (hpc : s.pc c = .idle) (forked : Bool) : Inv (s.release forked c) := by
  have hfits := hI.fits c
  rw [hpc] at hfits
  have hout : c ∉ s.arrivals := hfits.fresh rfl rfl rfl
  have hgone : s.gone c = false := hI.not_gone (by rw [hpc]; exact nofun)
  have hwake : ∀ d, d ∈ (s.pc c).toWake → False := by
    intro d hd
    rw [hpc] at hd
    cases hd
  unfold State.release
  split
  -- A `release` of a free mutex raises, or is forgiven in a forked child.
  next hfree =>
    refine hI.move hgone (by rw [hpc]; rfl) ?_ nofun
    cases forked <;> exact ⟨nofun, nofun, fun _ _ => hfits.other rfl rfl, fun _ => hfits.live rfl,
      fun _ _ _ => hout⟩
  next hlocked =>
    have hlocked' : s.locked = true := by simpa using hlocked
    -- One owner goes, and the log has none left before the hand-off.
    have hone : (owners s.log).length = 1 := by
      rw [hI.owner, hlocked']
      rfl
    have htail : (owners s.log).tail = [] := by
      apply eq_nil_of_length_eq_zero
      rw [length_tail, hone]
    have hord := hI.ordered.hand
    rcases s.tickets.hand_cases with ⟨d, pre, rest, hl, hpre, hact, heq⟩ | ⟨hl, heq⟩
    -- The first active ticket gets the mutex, which stays locked.
    · rw [heq] at hord ⊢
      have hmem : d ∈ s.tickets.waiters := by
        rw [hl]
        exact mem_append_right _ mem_cons_self
      have hloop := hI.inLoop hmem hact
      have hdc : d ≠ c := by
        rintro rfl
        exact hout (hI.ordered.mem hmem)
      have hnot : ¬ Event.acquired c ∈ s.log := hfits.other rfl rfl
      refine hI.goto hord (fun e he => (hI.fits e).hand hl fun h => h ▸ hloop) ?_ (fun e he => ?_) (fun h => ?_) ?_
        hgone (fun e _ _ he => (hwake e he).elim) (fun e hec _ he => ?_) nofun
      · have hself : Fits s.tickets s.arrivals s.log c (.handOff d) :=
          ⟨nofun, nofun, fun _ _ => hnot, fun _ => hfits.live rfl, fun _ _ _ => hout⟩
        exact hself.hand hl fun h => absurd h.symm hdc
      · by_cases hed : e = d
        · subst hed
          exact mem_append_right _ (mem_cons_of_mem _ (mem_singleton_self _))
        · have he' : update s.tickets.granted d true e = true := he
          rw [update_of_ne hed] at he'
          exact mem_append_left _ (hI.granted e he')
      · rw [hlocked'] at h
        cases h
      · rw [show s.log ++ [Event.released, Event.acquired d] = s.log ++ [Event.released] ++ [Event.acquired d] by
          simp, owners_acquired, owners_released, htail, hlocked']
        rfl
      · by_cases hed : e = d
        · subst hed
          exact .inr (mem_singleton_self _)
        · left
          have he' : update s.tickets.granted d true e = true := he
          rwa [update_of_ne hed] at he'
    · rw [heq] at hord ⊢
      -- No ticket is active: the queue is dropped with the lock.
      have hempty : ∀ {e : C} {q : Pc C}, Fits s.tickets s.arrivals s.log e q →
          Fits { s.tickets with waiters := [] } s.arrivals (s.log ++ [Event.released]) e q :=
        fun h => ⟨h.released.loop, h.released.won, h.released.other, nofun, h.released.fresh⟩
      refine hI.goto hord (fun e _ => hempty (hI.fits e)) (hempty ?_) (fun e he => ?_) (fun _ => rfl) ?_ hgone
        (fun e _ _ he => (hwake e he).elim) (fun e _ _ he => .inl he) nofun
      · exact ⟨nofun, nofun, fun _ _ => hfits.other rfl rfl, fun _ => hfits.live rfl, fun _ _ _ => hout⟩
      · exact mem_append_left _ (hI.granted e he)
      · rw [owners_released, htail]
        rfl

theorem Inv.call (hpc : s.pc c = .idle) (forked : Bool) (k : Call) : Inv (s.call forked c k) := by
  have hfits := hI.fits c
  rw [hpc] at hfits
  have hmove : ∀ {p : Pc C}, p.inLoop = false → p.won = false → p.asleep = false → Inv (s.goto c p) := by
    intro p hloop hwon hsleep
    refine hI.move (hI.not_gone (by rw [hpc]; exact nofun)) (by rw [hpc]; rfl) ?_ fun h => ?_
    · refine ⟨fun h => ?_, fun h => ?_, fun _ _ => hfits.other rfl rfl, fun _ => hfits.live rfl,
        fun _ _ _ => hfits.fresh rfl rfl rfl⟩
      · rw [hloop] at h
        cases h
      · rw [hwon] at h
        cases h
    · rw [hsleep] at h
      cases h
  cases k with
  | acquire blocking timeout =>
    simp only [State.call]
    split
    next hfree => exact hI.take (.inl hpc) (by simpa using hfree) rfl
    split <;> exact hmove rfl rfl rfl
  | release => exact hI.release hpc forked

theorem Inv.enqueue {timeout : Option ℤ} (hpc : s.pc c = .building timeout) : Inv (s.enqueue c timeout) := by
  have hfits := hI.fits c
  rw [hpc] at hfits
  have hout : c ∉ s.arrivals := hfits.fresh rfl rfl rfl
  unfold State.enqueue
  split
  next hfree => exact hI.take (.inr ⟨timeout, hpc⟩) (by simpa using hfree) rfl
  next hlocked =>
    have hgranted : s.tickets.granted c = false := by
      rw [Bool.eq_false_iff]
      exact fun h => hout (hI.ordered.known c h)
    have hsame : ∀ d, (s.tickets.append c).granted d = s.tickets.granted d := by
      intro d
      by_cases hdc : d = c
      · subst hdc
        rw [hgranted]
        exact update_self ..
      · exact update_of_ne hdc ..
    refine hI.goto (hI.ordered.append hout) (fun d hd => (hI.fits d).append (Ne.symm hd)) ?_ (fun d hd => ?_)
      (fun h => ?_) hI.owner (hI.not_gone (by rw [hpc]; exact nofun)) (fun d _ _ hd => ?_) (fun d _ _ hd => ?_) nofun
    · refine ⟨fun _ => ⟨?_, update_self .., fun h => ?_⟩, nofun, nofun, nofun, nofun⟩
      · exact mem_append_right _ (mem_singleton_self c)
      · exact absurd h (hfits.other rfl rfl)
    · rw [hsame] at hd
      exact hI.granted d hd
    · rw [h] at hlocked
      cases hlocked rfl
    · rw [hpc] at hd
      cases hd
    · rw [hsame] at hd
      exact .inl hd

theorem Inv.win (hwake : (s.pc c).toWake = [])
    (hgone : s.gone c = false) (hg : s.tickets.granted c = true) : Inv (s.goto c (.leaving .true)) := by
  refine hI.move hgone hwake ⟨nofun, fun _ => hI.granted c hg, nofun, fun _ hc => ?_, nofun⟩ nofun
  have := hI.ordered.waits c hc
  rw [hg] at this
  cases this

theorem Inv.turn (hloop : (s.pc c).inLoop = true) (hwake : (s.pc c).toWake = [])
    (hgone : s.gone c = false) (hp : p.inLoop = true)
    (hsleep : p.asleep = true → s.tickets.granted c = true → (s.pc c).asleep = true) : Inv (s.goto c p) := by
  have hwon : p.won = false := by
    cases p with
    | leaving r | returned r => cases hp
    | _ => rfl
  refine hI.move hgone hwake ⟨fun _ => (hI.fits c).loop hloop, fun h => ?_, fun h => ?_, fun h => ?_, fun h => ?_⟩
    hsleep
  · rw [hwon] at h
    cases h
  all_goals
    rw [hp] at h
    cases h

theorem Inv.look {deadline : Option ℤ} (hpc : s.pc c = .look deadline) : Inv (s.look c deadline) := by
  have hloop : (s.pc c).inLoop = true := by
    rw [hpc]
    rfl
  have hwake : (s.pc c).toWake = [] := by
    rw [hpc]
    rfl
  have hgone : s.gone c = false := hI.not_gone (by rw [hpc]; exact nofun)
  unfold State.look
  split
  next hg => exact hI.win hwake hgone hg
  next hg =>
    cases deadline with
    | none | some d => exact hI.turn hloop hwake hgone rfl fun _ h => absurd h hg

theorem Inv.expire (hpc : s.pc c = .expired) : Inv (s.expire c) := by
  have hloop : (s.pc c).inLoop = true := by
    rw [hpc]
    rfl
  have hwake : (s.pc c).toWake = [] := by
    rw [hpc]
    rfl
  have hgone : s.gone c = false := hI.not_gone (by rw [hpc]; exact nofun)
  unfold State.expire
  split
  next hg => exact hI.win hwake hgone hg
  next hg =>
    obtain ⟨-, -, hacq⟩ := (hI.fits c).loop hloop
    refine hI.goto hI.ordered.deactivate (fun d hd => (hI.fits d).deactivate (Ne.symm hd)) ?_ hI.granted hI.free
      hI.owner hgone (fun d _ _ hd => ?_) (fun d _ _ hd => .inl hd) nofun
    · exact ⟨nofun, nofun, fun _ _ h => hg (hacq h), fun _ _ => update_self .., nofun⟩
    · rw [hwake] at hd
      cases hd

/-! ## The other steps -/

theorem Inv.wakeUp : Inv (s.wakeUp c) :=
  { hI with woken := fun d hd hg => (hI.woken d hd hg).poke }

theorem Inv.eat {foreign : C → Bool} (hc : (s.pc c).asleep = false) : Inv (s.eat foreign c) := by
  refine { hI with woken := fun d hd hg => ?_ }
  have hdc : d ≠ c := by
    rintro rfl
    rw [show (s.pc d).asleep = true from hd] at hc
    cases hc
  refine (hI.woken d hd hg).imp id (Or.imp (fun h => ?_) id)
  show 0 < update s.credit c _ d
  rwa [update_of_ne hdc]

theorem Inv.wake (hpc : s.pc c = .wake d) : Inv ((s.wakeUp d).goto c (.returned .none)) := by
  have hfits := hI.fits c
  rw [hpc] at hfits
  have hself : Fits s.tickets s.arrivals s.log c (.returned .none) :=
    ⟨nofun, nofun, fun _ _ => hfits.other rfl rfl, fun _ => hfits.live rfl, fun _ _ _ => hfits.fresh rfl rfl rfl⟩
  refine ⟨hI.ordered, fun e => ?_, hI.granted, hI.free, hI.owner, fun e he => ?_, fun e he hg => ?_⟩
  · by_cases hec : e = c
    · subst hec
      rw [State.goto_self]
      exact hself
    · rw [State.goto_of_ne _ _ hec]
      exact hI.fits e
  · by_cases hec : e = c
    · subst hec
      exact ⟨.none, update_self ..⟩
    · rw [State.goto_of_ne _ _ hec]
      exact hI.gone e he
  · have hec : e ≠ c := by
      rintro rfl
      rw [State.goto_self] at he
      cases he
    rw [State.goto_of_ne _ _ hec] at he
    apply (hI.woken e he hg).wake
    rw [hpc]
    rfl

theorem Inv.leave {r : Result} (hpc : s.pc c = .leaving r) :
    Inv ({ s with gone := update s.gone c true }.goto c (.returned r)) := by
  have hfits := hI.fits c
  rw [hpc] at hfits
  have hmoved : Inv (s.goto c (.returned r)) := by
    refine hI.move (hI.not_gone (by rw [hpc]; exact nofun)) (by rw [hpc]; rfl) ?_ nofun
    cases r <;> exact ⟨hfits.loop, hfits.won, hfits.other, hfits.live, hfits.fresh⟩
  refine { hmoved with gone := fun d hd => ?_ }
  by_cases hdc : d = c
  · subst hdc
    exact ⟨r, update_self ..⟩
  · have hd' : update s.gone c true d = true := hd
    rw [update_of_ne hdc] at hd'
    exact hmoved.gone d hd'

theorem Inv.handOff (foreign : C → Bool) (hpc : s.pc c = .handOff d) :
    Inv (if s.gone d && !foreign d then s.goto c (.returned .none) else s.goto c (.wake d)) := by
  have hfits := hI.fits c
  rw [hpc] at hfits
  have hgone : s.gone c = false := hI.not_gone (by rw [hpc]; exact nofun)
  have hgo : ∀ {p : Pc C}, p.inLoop = false → p.won = false → p.asleep = false →
      (∀ e, (s.pc e).asleep = true → e = d → e ∈ p.toWake) → Inv (s.goto c p) := by
    intro p hloop hwon hsleep hw
    refine hI.goto hI.ordered (fun e _ => hI.fits e) ?_ hI.granted hI.free hI.owner hgone (fun e he _ hed => ?_)
      (fun e _ _ hg => .inl hg) fun h => ?_
    · refine ⟨fun h => ?_, fun h => ?_, fun _ _ => hfits.other rfl rfl, fun _ => hfits.live rfl,
        fun _ _ _ => hfits.fresh rfl rfl rfl⟩
      · rw [hloop] at h
        cases h
      · rw [hwon] at h
        cases h
    · rw [hpc] at hed
      exact hw e he (mem_singleton.mp hed)
    · rw [hsleep] at h
      cases h
  split
  next hd =>
    refine hgo rfl rfl rfl fun e he hed => ?_
    subst hed
    obtain ⟨r, hr⟩ := hI.gone e (Bool.and_eq_true_iff.mp hd).1
    rw [hr] at he
    cases he
  next =>
    refine hgo rfl rfl rfl fun e _ hed => ?_
    subst hed
    exact mem_singleton_self _

theorem Inv.next {foreign : C → Bool} (h : s.next foreign c = some t) : Inv t := by
  unfold State.next at h
  split at h
  · cases h
  -- The section that queues the ticket.
  next timeout hpc =>
    cases h
    exact hI.enqueue hpc
  -- In the loop: the deadline is set, the grant is looked at, the clock is read.
  next timeout hpc =>
    cases h
    exact hI.turn (by rw [hpc]; rfl) (by rw [hpc]; rfl) (hI.not_gone (by rw [hpc]; exact nofun)) rfl nofun
  next deadline hpc =>
    cases h
    exact hI.look hpc
  next d hpc =>
    cases h
    have hgone : s.gone c = false := hI.not_gone (by rw [hpc]; exact nofun)
    split
    · exact hI.turn (by rw [hpc]; rfl) (by rw [hpc]; rfl) hgone rfl nofun
    · exact hI.turn (by rw [hpc]; rfl) (by rw [hpc]; rfl) hgone rfl fun _ _ => by rw [hpc]; rfl
  -- The park: a credit is eaten before it, or by it.
  next deadline hpc =>
    cases h
    have hgone : s.gone c = false := hI.not_gone (by rw [hpc]; exact nofun)
    split
    · have hmoved : Inv (s.goto c (.look deadline)) :=
        hI.turn (by rw [hpc]; rfl) (by rw [hpc]; rfl) hgone rfl nofun
      exact hmoved.eat (by simp [State.goto, Pc.asleep])
    · exact hI.turn (by rw [hpc]; rfl) (by rw [hpc]; rfl) hgone rfl fun _ _ => by rw [hpc]; rfl
  next deadline hpc =>
    cases h
    have hmoved : Inv (s.goto c (.look deadline)) :=
      hI.turn (by rw [hpc]; rfl) (by rw [hpc]; rfl) (hI.not_gone (by rw [hpc]; exact nofun)) rfl nofun
    exact hmoved.eat (by simp [State.goto, Pc.asleep])
  -- The section at the deadline, which takes the ticket out unless it is granted.
  next hpc =>
    cases h
    exact hI.expire hpc
  -- The parker goes back to its pool.
  next r hpc =>
    cases h
    exact hI.leave hpc
  -- A `release` that has handed the mutex over still owes the wake.
  next d hpc =>
    cases h
    exact hI.handOff foreign hpc
  next d hpc =>
    cases h
    exact hI.wake hpc
  next => cases h

theorem Inv.step {foreign : C → Bool} {forked : Bool} {a : Action C}
    (h : CoFMutex.step foreign forked s a = some t) : Inv t := by
  cases a with
  | call c k =>
    simp only [CoFMutex.step] at h
    split at h <;> cases h
    next hpc => exact hI.call hpc forked k
  | next c => exact hI.next h
  | elsewhere c =>
    simp only [CoFMutex.step] at h
    split at h <;> cases h
    next hc => exact hI.eat (Bool.eq_false_iff.mpr hc)
  | poke c =>
    cases h
    exact hI.wakeUp
  | tick d =>
    cases h
    exact ⟨hI.ordered, hI.fits, hI.granted, hI.free, hI.owner, hI.gone, hI.woken⟩

end

variable {foreign : C → Bool} {forked : Bool}

theorem inv_of_reachable (h : (mutex foreign forked).Reachable s) : Inv s :=
  h.invariant (fun _ hs => Inv.init hs) fun _ _ _ hI _ hs => hI.step hs

theorem Inv.release_first (hI : Inv s) (hlocked : s.locked = true) :
    match s.arrivals.filter fun c => s.tickets.active c && !s.tickets.granted c with
    | [] => (s.release forked c).locked = false ∧ (s.release forked c).tickets.granted = s.tickets.granted
    | d :: _ => (s.release forked c).locked = true ∧
      (s.release forked c).tickets.granted = update s.tickets.granted d true ∧
      (s.release forked c).log = s.log ++ [Event.released, Event.acquired d] := by
  have hfirst := hI.ordered.hand_first
  have hnot : ¬(!s.locked) = true := by
    rw [hlocked]
    decide
  unfold State.release
  rw [if_neg hnot]
  rcases s.tickets.hand_cases with ⟨d, pre, rest, hl, hpre, hact, heq⟩ | ⟨hl, heq⟩
  · rw [heq] at hfirst ⊢
    cases hfilter : s.arrivals.filter fun c => s.tickets.active c && !s.tickets.granted c with
    | nil =>
      rw [hfilter] at hfirst
      cases hfirst
    | cons e es =>
      rw [hfilter] at hfirst
      cases hfirst
      exact ⟨hlocked, rfl, rfl⟩
  · rw [heq] at hfirst ⊢
    cases hfilter : s.arrivals.filter fun c => s.tickets.active c && !s.tickets.granted c with
    | nil => exact ⟨rfl, rfl⟩
    | cons e es =>
      rw [hfilter] at hfirst
      cases hfirst

/-- At most one call has the mutex; a release gives it to the first that waits; no call sleeps on a grant without a
wake. -/
theorem mutex_handed_over (h : (mutex foreign forked).Reachable s) :
    (owners s.log).length ≤ 1 ∧ (s.locked = true ↔ owners s.log ≠ []) ∧
    (s.locked = false → ∀ c ∈ s.tickets.waiters, s.tickets.active c = false) ∧
    (∀ r t, step foreign forked s (.call r .release) = some t → s.locked = true →
      match s.arrivals.filter fun c => s.tickets.active c && !s.tickets.granted c with
      | [] => t.locked = false ∧ t.tickets.granted = s.tickets.granted
      | c :: _ => t.locked = true ∧ t.tickets.granted = update s.tickets.granted c true ∧
        t.log = s.log ++ [Event.released, Event.acquired c]) ∧
    (∀ c, s.pc c = .returned .true → Event.acquired c ∈ s.log) ∧
    (∀ c, s.pc c = .returned .false → s.tickets.granted c = false ∧ Event.acquired c ∉ s.log) ∧
    (∀ c, (s.pc c).asleep = true → s.tickets.granted c = true → 0 < s.credit c ∨ ∃ d, c ∈ (s.pc d).toWake) := by
  have hI := inv_of_reachable h
  refine ⟨?_, ?_, fun hfree c hc => ?_, fun r t ht hlocked => ?_, fun c hc => ?_, fun c hc => ?_,
    fun c hc hg => (hI.woken c hc hg).resolve_left not_mem_nil⟩
  · rw [hI.owner]
    split <;> simp
  · rw [← length_pos_iff, hI.owner]
    cases s.locked <;> simp
  · rw [hI.free hfree] at hc
    cases hc
  · simp only [step] at ht
    split at ht
    · exact Option.some.inj ht ▸ hI.release_first hlocked
    · cases ht
  · apply (hI.fits c).won
    rw [hc]
    rfl
  · have hnot : Event.acquired c ∉ s.log := by
      apply (hI.fits c).other <;> rw [hc] <;> rfl
    refine ⟨?_, hnot⟩
    rw [Bool.eq_false_iff]
    exact fun hg => hnot (hI.granted c hg)

def unlocked : State (Fin 4) := ⟨false, ⟨[], fun _ => false, fun _ => false⟩, fun _ => false, fun _ => 0,
  fun _ => .idle, 0, [], []⟩

/-- Call 1 gives up; the release of call 3 goes past its ticket and hands the mutex to call 2, a foreign thread. -/
theorem mutex_handed_over_fourCalls :
    ∃ s, (mutex (fun c : Fin 4 => c == 2) false).Reachable s ∧ s.pc 1 = .returned .false ∧
      s.pc 2 = .returned .true ∧ s.tickets.granted 1 = false ∧ Event.acquired 2 ∈ s.log ∧
      (owners s.log).length ≤ 1 := by
  obtain ⟨s, hr, h1, h2⟩ := (mutex (fun c : Fin 4 => c == 2) false).reaches
    (fun s => s.pc 1 = .returned .false ∧ s.pc 2 = .returned .true)
    [.call 0 (.acquire true none), .call 1 (.acquire true (some 2)), .next 1, .next 1,
      .call 2 (.acquire true none), .next 2, .next 2, .next 1, .tick 2, .next 1, .next 1, .next 1,
      .next 2, .next 2, .call 3 .release, .next 3, .next 3, .next 2, .next 2, .next 2]
    (s := unlocked) ⟨rfl, rfl, fun _ => rfl, fun _ => rfl, fun _ => rfl, rfl, rfl⟩ (by decide +kernel)
  obtain ⟨hone, -, -, -, hwon, hlost, -⟩ := mutex_handed_over hr
  exact ⟨s, hr, h1, h2, (hlost 1 h1).1, hwon 2 h2, hone⟩

end Runloom.CoFMutex
