import Mathlib.Algebra.Order.BigOperators.Group.List
import Mathlib.Algebra.Order.Ring.Int
import Runloom.Handoff.Room
import Runloom.Transition.System

/-!
# The weighted semaphore

Model of `sync.Semaphore`: `acquire`, `try_acquire`, `release` and `_grant_locked`.  A step is a section under the
guard, a park or its return, or one wake after the guard is left.

Every call has a name of its own, and its cell `[g, n, [granted]]` is known by that name: a fiber is in one call at a
time, so no two cells in the queue are equal.
-/

namespace Runloom.Semaphore

open Transition Handoff

inductive Call where
  | acquire (n : ℤ) (timed : Bool)
  | tryAcquire (n : ℤ)
  | release (n : ℤ)

def Call.n : Call → ℤ
  | .acquire n _ => n
  | .tryAcquire n => n
  | .release n => n

def Call.timed : Call → Bool
  | .acquire _ timed => timed
  | _ => false

inductive Result where
  | true
  | false
  /-- The return of `release`. -/
  | none
  /-- `ValueError`, "n must be >= 0". -/
  | negative
  /-- `ValueError`, "exceeds limit". -/
  | exceedsLimit
  /-- `ValueError`, "released more than held". -/
  | overRelease
deriving DecidableEq

/-- What happened, in order. -/
inductive Event (C : Type*) where
  /-- The cell is appended to `_waiters`. -/
  | queued (c : C)
  | granted (c : C)
  /-- The call gave up and left `_waiters`. -/
  | left (c : C)
  | released (c : C)

structure State (C : Type*) where
  held : ℤ
  waiters : List C
  room : Room C Result
  log : List (Event C)

inductive Action (C : Type*) where
  | start (c : C)
  | move (c : C) (late : Bool)
  | check (c : C)
  | expire (c : C)

variable {C : Type*}

/-- The loop of `_grant_locked`: the new `_held`, the cells granted, and those that stay. -/
def grantLoop (limit : ℤ) (n : C → ℤ) : ℤ → List C → ℤ × List C × List C
  | held, [] => (held, [], [])
  | held, w :: ws =>
    if held + n w ≤ limit then
      let (held', woke, rest) := grantLoop limit n (held + n w) ws
      (held', w :: woke, rest)
    -- The first that does not fit ends the loop, and those behind it wait with it.
    else (held, [], w :: ws)

namespace State

variable [DecidableEq C] (limit : ℤ) (calls : C → Call)

def goto (s : State C) (c : C) (pc : Pc C Result) : State C :=
  { s with room := s.room.goto c pc }

/-- `_grant_locked`, the end of the section of `c`, and the wakes that `c` has to make. -/
def grantLocked (s : State C) (c : C) (r : Result) : State C :=
  let (held, woke, rest) := grantLoop limit (fun c => (calls c).n) s.held s.waiters
  { held := held
    waiters := rest
    room := (s.room.grant woke).goto c (.finish woke r)
    log := s.log ++ woke.map Event.granted }

def take (s : State C) (c : C) : State C :=
  { s with held := s.held + (calls c).n, log := s.log ++ [Event.granted c] }.goto c (.returned .true)

def free (s : State C) (c : C) : Bool :=
  s.waiters.isEmpty && decide (s.held + (calls c).n ≤ limit)

def start (s : State C) (c : C) : State C :=
  match calls c with
  | .acquire n _ =>
    if n < 0 then s.goto c (.returned .negative)
    else if limit < n then s.goto c (.returned .exceedsLimit)
    else if s.free limit calls c then s.take calls c
    else { s with waiters := s.waiters ++ [c], log := s.log ++ [Event.queued c] }.goto c .waiting
  | .tryAcquire n =>
    if n < 0 then s.goto c (.returned .negative)
    else if s.free limit calls c then s.take calls c
    else s.goto c (.returned .false)
  | .release n =>
    if n < 0 then s.goto c (.returned .negative)
    else if s.held < n then s.goto c (.returned .overRelease)
    else { s with held := s.held - n, log := s.log ++ [Event.released c] }.grantLocked limit calls c .none

def expire (s : State C) (c : C) : State C :=
  if s.room.granted c then s.goto c (.returned .true)
  else
    { s with waiters := s.waiters.erase c, log := s.log ++ [Event.left c] }.grantLocked limit calls c .false

end State

variable [DecidableEq C]

def step (limit : ℤ) (calls : C → Call) (s : State C) : Action C → Option (State C)
  | .start c =>
    match s.room.pc c with
    | .idle => some (s.start limit calls c)
    | _ => none
  | .move c late =>
    (s.room.next ((calls c).timed && late) c).map fun room => { s with room := room }
  | .check c =>
    match s.room.pc c with
    | .woken => some { s with room := s.room.check c .true }
    | _ => none
  | .expire c =>
    match s.room.pc c with
    | .expired => some (s.expire limit calls c)
    | _ => none

structure Init (s : State C) : Prop where
  held : s.held = 0
  waiters : s.waiters = []
  pc : ∀ c, s.room.pc c = .idle
  granted : ∀ c, s.room.granted c = false
  log : s.log = []

/-- A semaphore and its calls; `__init__` refuses a negative limit. -/
def semaphore (limit : ℤ) (calls : C → Call) : System (State C) (Action C) where
  init s := 0 ≤ limit ∧ Init s
  step := step limit calls

end Runloom.Semaphore

/-!
## Permits, order and waiting

The log says who queued, who was granted and who left.  The queue is what is left of the arrivals: those who
queued and have not given up are, in the order of arrival, those who were granted followed by those who still
wait.  After every section the front waiter does not fit.
-/

namespace Runloom.Semaphore

open Transition Handoff List

variable {C : Type*}

/-! ## The log -/

def queuedOf (log : List (Event C)) : List C :=
  log.filterMap fun
    | .queued c => some c
    | _ => none

def grantedOf (log : List (Event C)) : List C :=
  log.filterMap fun
    | .granted c => some c
    | _ => none

def leftOf (log : List (Event C)) : List C :=
  log.filterMap fun
    | .left c => some c
    | _ => none

def releasedOf (log : List (Event C)) : List C :=
  log.filterMap fun
    | .released c => some c
    | _ => none

theorem logOf_concat (log : List (Event C)) (e : Event C) : queuedOf (log ++ [e]) = queuedOf log ++ queuedOf [e] ∧
    grantedOf (log ++ [e]) = grantedOf log ++ grantedOf [e] ∧
    leftOf (log ++ [e]) = leftOf log ++ leftOf [e] ∧
    releasedOf (log ++ [e]) = releasedOf log ++ releasedOf [e] :=
  ⟨filterMap_append, filterMap_append, filterMap_append, filterMap_append⟩

theorem logOf_grants (log : List (Event C)) (cs : List C) :
    queuedOf (log ++ cs.map Event.granted) = queuedOf log ∧
    grantedOf (log ++ cs.map Event.granted) = grantedOf log ++ cs ∧
    leftOf (log ++ cs.map Event.granted) = leftOf log ∧
    releasedOf (log ++ cs.map Event.granted) = releasedOf log := by
  have hbatch : queuedOf (cs.map Event.granted) = [] ∧ grantedOf (cs.map Event.granted) = cs ∧
      leftOf (cs.map Event.granted) = [] ∧ releasedOf (cs.map Event.granted) = [] := by
    induction cs with
    | nil => exact ⟨rfl, rfl, rfl, rfl⟩
    | cons c cs ih => exact ⟨ih.1, congrArg (c :: ·) ih.2.1, ih.2.2.1, ih.2.2.2⟩
  obtain ⟨hq, hg, hl, hr⟩ := hbatch
  refine ⟨?_, ?_, ?_, ?_⟩
  · rw [queuedOf, filterMap_append]
    exact (congrArg _ hq).trans (append_nil _)
  · rw [grantedOf, filterMap_append]
    exact congrArg _ hg
  · rw [leftOf, filterMap_append]
    exact (congrArg _ hl).trans (append_nil _)
  · rw [releasedOf, filterMap_append]
    exact (congrArg _ hr).trans (append_nil _)

/-! ## `_grant_locked` -/

theorem grantLoop_spec (limit : ℤ) (n : C → ℤ) (ws : List C) (held : ℤ) {held' : ℤ} {woke rest : List C}
    (h : grantLoop limit n held ws = (held', woke, rest)) (hle : held ≤ limit) :
    ws = woke ++ rest ∧ held' = held + (woke.map n).sum ∧ held' ≤ limit ∧
      ∀ w ws', rest = w :: ws' → limit < held' + n w := by
  -- The induction is on the queue, with the counter as the loop has left it.
  induction ws generalizing held held' woke rest with
  | nil =>
    cases h
    refine ⟨rfl, ?_, hle, fun w ws' h => by cases h⟩
    simp
  | cons w ws ih =>
    rw [grantLoop] at h
    split at h
    next hfits =>
      cases hrec : grantLoop limit n (held + n w) ws with
      | mk held₁ p =>
        rw [hrec] at h
        cases h
        obtain ⟨hws, hsum, hle', hfront⟩ := ih (held + n w) hrec hfits
        refine ⟨?_, ?_, hle', hfront⟩
        · rw [hws, cons_append]
        · rw [hsum, map_cons, sum_cons]
          omega
    next hfits =>
      cases h
      refine ⟨rfl, ?_, hle, fun w' ws' h => ?_⟩
      · simp
      · cases h
        omega

/-! ## The account -/

variable [DecidableEq C] {limit held : ℤ} {calls : C → Call} {waiters : List C} {log : List (Event C)} {c : C}

/-- What the counter and the queue say about the log. -/
structure Account (limit : ℤ) (calls : C → Call) (held : ℤ) (waiters : List C) (log : List (Event C)) : Prop where
  nonneg : 0 ≤ held
  le : held ≤ limit
  sum : held = ((grantedOf log).map fun c => (calls c).n).sum - ((releasedOf log).map fun c => (calls c).n).sum
  fits : ∀ c ∈ waiters, 0 ≤ (calls c).n
  fifo : (queuedOf log).filter (· ∉ leftOf log) = (grantedOf log).filter (· ∈ queuedOf log) ++ waiters
  queued : (queuedOf log).Nodup

section

variable (hA : Account limit calls held waiters log)
include hA

theorem Account.queued_of_mem (hc : c ∈ waiters) : c ∈ queuedOf log := by
  have hmem : c ∈ (grantedOf log).filter (· ∈ queuedOf log) ++ waiters := mem_append_right _ hc
  rw [← hA.fifo] at hmem
  exact (mem_filter.mp hmem).1

theorem Account.grants {held' : ℤ} {woke rest : List C}
    (hloop : grantLoop limit (fun c => (calls c).n) held waiters = (held', woke, rest)) :
    Account limit calls held' rest (log ++ woke.map Event.granted) := by
  obtain ⟨hws, hsum, hle, -⟩ := grantLoop_spec _ _ _ _ hloop hA.le
  obtain ⟨hq, hgr, hl, hrel⟩ := logOf_grants log woke
  have hwoke : ∀ d ∈ woke, d ∈ waiters := fun d hd => hws ▸ mem_append_left _ hd
  have hrest : ∀ d ∈ rest, d ∈ waiters := fun d hd => hws ▸ mem_append_right _ hd
  exact {
    nonneg := by
      have hpos : 0 ≤ (woke.map fun c => (calls c).n).sum := by
        apply sum_nonneg
        intro x hx
        obtain ⟨d, hd, rfl⟩ := mem_map.mp hx
        exact hA.fits d (hwoke d hd)
      have := hA.nonneg
      omega
    le := hle
    sum := by
      have := hA.sum
      rw [hgr, hrel, map_append, sum_append]
      omega
    fits := fun d hd => hA.fits d (hrest d hd)
    fifo := by
      -- What goes from the front of the queue comes at the end of the grants.
      rw [hq, hl, hgr, hA.fifo, filter_append, hws, append_assoc]
      congr 2
      symm
      rw [filter_eq_self]
      exact fun d hd => decide_eq_true (hA.queued_of_mem (hwoke d hd))
    queued := by
      rw [hq]
      exact hA.queued }

theorem Account.take (hn : 0 ≤ (calls c).n) (hle : held + (calls c).n ≤ limit) (hnq : c ∉ queuedOf log) :
    Account limit calls (held + (calls c).n) waiters (log ++ [Event.granted c]) := by
  obtain ⟨hq, hgr, hl, hrel⟩ := logOf_grants log [c]
  exact {
    nonneg := Int.add_nonneg hA.nonneg hn
    le := hle
    sum := by
      have := hA.sum
      rw [← map_singleton, hgr, hrel, map_append, sum_append, map_singleton, sum_singleton]
      omega
    fits := hA.fits
    fifo := by
      rw [← map_singleton, hq, hl, hgr, hA.fifo, filter_append]
      simp [hnq]
    queued := by
      rw [← map_singleton, hq]
      exact hA.queued }

theorem Account.enqueue (hn : 0 ≤ (calls c).n)
    (hnq : c ∉ queuedOf log) (hng : c ∉ grantedOf log) (hnl : c ∉ leftOf log) :
    Account limit calls held (waiters ++ [c]) (log ++ [Event.queued c]) := by
  obtain ⟨hq, hg, hl, hr⟩ := logOf_concat log (.queued c)
  have hgr : grantedOf (log ++ [Event.queued c]) = grantedOf log := hg.trans (append_nil _)
  have hqu : queuedOf (log ++ [Event.queued c]) = queuedOf log ++ [c] := hq
  have hle : leftOf (log ++ [Event.queued c]) = leftOf log := hl.trans (append_nil _)
  have hre : releasedOf (log ++ [Event.queued c]) = releasedOf log := hr.trans (append_nil _)
  exact {
    nonneg := hA.nonneg
    le := hA.le
    sum := by
      rw [hgr, hre]
      exact hA.sum
    fits := fun d hd => by
      rcases mem_append.mp hd with hd | hd
      · exact hA.fits d hd
      · rw [mem_singleton.mp hd]
        exact hn
    fifo := by
      have hsame : (grantedOf log).filter (· ∈ queuedOf log ++ [c]) =
          (grantedOf log).filter (· ∈ queuedOf log) := by
        apply filter_congr
        intro d hd
        have hdc : d ≠ c := fun h => hng (h ▸ hd)
        simp [hdc]
      rw [hqu, hgr, hle, hsame, filter_append, hA.fifo, append_assoc]
      simp [hnl]
    queued := by
      rw [hqu]
      exact nodup_append'.mpr ⟨hA.queued, nodup_singleton c, fun d hd hdc =>
        hnq (mem_singleton.mp hdc ▸ hd)⟩ }

theorem Account.giveBack (hn : 0 ≤ (calls c).n) (hle : (calls c).n ≤ held) :
    Account limit calls (held - (calls c).n) waiters (log ++ [Event.released c]) := by
  obtain ⟨hq, hg, hl, hr⟩ := logOf_concat log (.released c)
  have hgr : grantedOf (log ++ [Event.released c]) = grantedOf log := hg.trans (append_nil _)
  have hqu : queuedOf (log ++ [Event.released c]) = queuedOf log := hq.trans (append_nil _)
  have hle' : leftOf (log ++ [Event.released c]) = leftOf log := hl.trans (append_nil _)
  have hre : releasedOf (log ++ [Event.released c]) = releasedOf log ++ [c] := hr
  exact {
    nonneg := Int.sub_nonneg_of_le hle
    le := by
      have := hA.le
      omega
    sum := by
      have := hA.sum
      rw [hgr, hre, map_append, sum_append, map_singleton, sum_singleton]
      omega
    fits := hA.fits
    fifo := by
      rw [hqu, hgr, hle']
      exact hA.fifo
    queued := by
      rw [hqu]
      exact hA.queued }

theorem Account.leave (hnodup : waiters.Nodup) (hng : c ∉ grantedOf log) :
    Account limit calls held (waiters.erase c) (log ++ [Event.left c]) := by
  obtain ⟨hq, hg, hl, hr⟩ := logOf_concat log (.left c)
  have hgr : grantedOf (log ++ [Event.left c]) = grantedOf log := hg.trans (append_nil _)
  have hqu : queuedOf (log ++ [Event.left c]) = queuedOf log := hq.trans (append_nil _)
  have hle : leftOf (log ++ [Event.left c]) = leftOf log ++ [c] := hl
  have hre : releasedOf (log ++ [Event.left c]) = releasedOf log := hr.trans (append_nil _)
  exact {
    nonneg := hA.nonneg
    le := hA.le
    sum := by
      rw [hgr, hre]
      exact hA.sum
    fits := fun d hd => hA.fits d (mem_of_mem_erase hd)
    fifo := by
      -- Of the arrivals that have not given up, just `c` is gone.
      have hsplit : (queuedOf log).filter (· ∉ leftOf log ++ [c]) =
          ((queuedOf log).filter (· ∉ leftOf log)).filter (· ≠ c) := by
        rw [filter_filter]
        apply filter_congr
        intro d _
        by_cases hdc : d = c <;> simp [hdc]
      have hkeep : ((grantedOf log).filter (· ∈ queuedOf log)).filter (· ≠ c) =
          (grantedOf log).filter (· ∈ queuedOf log) := by
        rw [filter_eq_self]
        intro d hd
        have hdc : d ≠ c := fun h => hng (h ▸ (mem_filter.mp hd).1)
        exact decide_eq_true hdc
      rw [hqu, hle, hgr, hsplit, hA.fifo, filter_append, hkeep, hnodup.erase_eq_filter]
      congr 1
      apply filter_congr
      intro d _
      by_cases hdc : d = c <;> simp [hdc]
    queued := by
      rw [hqu]
      exact hA.queued }

end

/-! ## Between two sections -/

variable {s s' : State C}

structure Inv (limit : ℤ) (calls : C → Call) (s : State C) : Prop where
  account : Account limit calls s.held s.waiters s.log
  seated : Seated s.room .true s.waiters (grantedOf s.log)
  arrived : ∀ c, s.room.pc c = .idle → c ∉ queuedOf s.log ∧ c ∉ leftOf s.log
  front : ∀ w ws, s.waiters = w :: ws → limit < s.held + (calls w).n

theorem Inv.init (hlimit : 0 ≤ limit) (h : Init s) : Inv limit calls s where
  account := by
    rw [h.held, h.waiters, h.log]
    exact ⟨le_rfl, hlimit, rfl, fun c hc => (by cases hc), rfl, nodup_nil⟩
  seated := by
    rw [h.waiters, h.log]
    exact seated_nil h.pc h.granted
  arrived c _ := by
    rw [h.log]
    exact ⟨not_mem_nil, not_mem_nil⟩
  front w ws hws := by
    rw [h.waiters] at hws
    cases hws

theorem Inv.arrived_goto (hI : Inv limit calls s) {x : Room C Result} {pc : Pc C Result}
    {log : List (Event C)} (hpc : x.pc = Function.update s.room.pc c pc) (hidle : pc ≠ .idle)
    (hq : ∀ d, d ≠ c → d ∈ queuedOf log → d ∈ queuedOf s.log)
    (hl : ∀ d, d ≠ c → d ∈ leftOf log → d ∈ leftOf s.log) :
    ∀ d, x.pc d = .idle → d ∉ queuedOf log ∧ d ∉ leftOf log := by
  intro d hd
  rw [hpc] at hd
  have hdc : d ≠ c := by
    rintro rfl
    rw [Function.update_self] at hd
    exact hidle hd
  rw [Function.update_of_ne hdc] at hd
  exact ⟨fun h => (hI.arrived d hd).1 (hq d hdc h), fun h => (hI.arrived d hd).2 (hl d hdc h)⟩

theorem Inv.grantLocked (hI : Inv limit calls s) {t : State C} {r : Result} (hr : r ≠ .true)
    (hA : Account limit calls t.held t.waiters t.log) (hroom : t.room = s.room)
    (hwait : t.waiters = s.waiters.erase c) (hgr : grantedOf t.log = grantedOf s.log)
    (hwake : (s.room.pc c).toWake = []) (hng : c ∉ grantedOf s.log)
    (hq : ∀ d, d ≠ c → d ∈ queuedOf t.log → d ∈ queuedOf s.log)
    (hl : ∀ d, d ≠ c → d ∈ leftOf t.log → d ∈ leftOf s.log) :
    Inv limit calls (t.grantLocked limit calls c r) := by
  unfold State.grantLocked
  cases hloop : grantLoop limit (fun c => (calls c).n) t.held t.waiters with
  | mk held p =>
    obtain ⟨woke, rest⟩ := p
    obtain ⟨hws, -, -, hfront⟩ := grantLoop_spec _ _ _ _ hloop hA.le
    obtain ⟨hq', hgr', hl', -⟩ := logOf_grants t.log woke
    rw [hroom]
    exact {
      account := hA.grants hloop
      seated := by
        simp only [hgr', hgr]
        refine hI.seated.grant hr hwake hng ?_
        rw [← hwait, hws]
      arrived := by
        refine hI.arrived_goto rfl ?_ (fun d hd h => hq d hd (hq' ▸ h)) fun d hd h => hl d hd (hl' ▸ h)
        cases woke <;> exact fun h => by cases h
      front := hfront }

/-! ## Steps -/

section

variable (hI : Inv limit calls s)
include hI

theorem Inv.refuse (h : s.room.pc c = .idle) {r : Result} (hr : r ≠ .true) :
    Inv limit calls (s.goto c (.returned r)) where
  account := hI.account
  seated := hI.seated.refuse h hr
  arrived := hI.arrived_goto rfl (fun h => by cases h) (fun _ _ => id) fun _ _ => id
  front := hI.front

theorem Inv.take (h : s.room.pc c = .idle) (hn : 0 ≤ (calls c).n)
    (hfree : s.free limit calls c = true) : Inv limit calls (s.take calls c) := by
  obtain ⟨hempty, hle⟩ := Bool.and_eq_true_iff.mp hfree
  have hempty : s.waiters = [] := List.isEmpty_iff.mp hempty
  have hle : s.held + (calls c).n ≤ limit := of_decide_eq_true hle
  obtain ⟨hq, hgr, hl, -⟩ := logOf_grants s.log [c]
  exact {
    account := hI.account.take hn hle (hI.arrived c h).1
    seated := by
      show Seated _ _ _ (grantedOf (s.log ++ [c].map Event.granted))
      rw [hgr]
      exact hI.seated.take h
    arrived := hI.arrived_goto rfl (fun h => by cases h) (fun d _ h => hq ▸ h) fun d _ h => hl ▸ h
    front := fun w ws hws => by
      rw [show (s.take calls c).waiters = [] from hempty] at hws
      cases hws }

theorem Inv.enqueue (h : s.room.pc c = .idle) (hn : 0 ≤ (calls c).n) (hfree : s.free limit calls c = false) :
    Inv limit calls ({ s with waiters := s.waiters ++ [c], log := s.log ++ [Event.queued c] }.goto c
      .waiting) := by
  obtain ⟨hq, hg, hl, -⟩ := logOf_concat s.log (.queued c)
  obtain ⟨hnq, hnl⟩ := hI.arrived c h
  exact {
    account := hI.account.enqueue hn hnq (hI.seated.fresh c h) hnl
    seated := by
      show Seated _ _ _ (grantedOf (s.log ++ [Event.queued c]))
      rw [hg.trans (append_nil _)]
      exact hI.seated.enqueue h
    arrived := by
      refine hI.arrived_goto rfl (fun h => by cases h) (fun d hd hmem => ?_) fun d _ hmem => ?_
      · have hmem : d ∈ queuedOf s.log ++ [c] := hq ▸ hmem
        exact (mem_append.mp hmem).resolve_right fun hdc => hd (mem_singleton.mp hdc)
      · exact (hl.trans (append_nil _)) ▸ hmem
    front := fun w ws hws => by
      have hws' : s.waiters ++ [c] = w :: ws := hws
      cases hcase : s.waiters with
      | nil =>
        rw [hcase] at hws'
        cases hws'
        simp only [State.free, hcase, isEmpty_nil, Bool.true_and, decide_eq_false_iff_not] at hfree
        exact not_le.mp hfree
      | cons v vs =>
        rw [hcase, cons_append] at hws'
        cases hws'
        exact hI.front w vs hcase }

theorem Inv.giveBack (h : s.room.pc c = .idle) (hn : 0 ≤ (calls c).n) (hle : (calls c).n ≤ s.held) :
    Inv limit calls ({ s with held := s.held - (calls c).n, log := s.log ++ [Event.released c] }.grantLocked
      limit calls c .none) := by
  obtain ⟨hq, hg, hl, -⟩ := logOf_concat s.log (.released c)
  have hout : c ∉ s.waiters := by
    apply hI.seated.notMem_of_not_inLoop
    rw [h]
    rfl
  refine hI.grantLocked (by decide) (hI.account.giveBack hn hle) rfl (erase_of_not_mem hout).symm
    (hg.trans (append_nil _)) ?_ (hI.seated.fresh c h) (fun d _ hmem => ?_) fun d _ hmem => ?_
  · rw [h]
    rfl
  · exact (hq.trans (append_nil _)) ▸ hmem
  · exact (hl.trans (append_nil _)) ▸ hmem

theorem Inv.start (h : s.room.pc c = .idle) : Inv limit calls (s.start limit calls c) := by
  have hfree : ∀ b, ¬b = true → b = false := fun b hb => Bool.eq_false_iff.mpr hb
  unfold State.start
  split
  next n timed hcall =>
    have hn : (calls c).n = n := by
      rw [hcall]
      rfl
    split
    next => exact hI.refuse h (by decide)
    next hneg =>
      split
      · exact hI.refuse h (by decide)
      · split
        next hf => exact hI.take h (by omega) hf
        next hf => exact hI.enqueue h (by omega) (hfree _ hf)
  next n hcall =>
    have hn : (calls c).n = n := by
      rw [hcall]
      rfl
    split
    next => exact hI.refuse h (by decide)
    next hneg =>
      split
      next hf => exact hI.take h (by omega) hf
      next => exact hI.refuse h (by decide)
  next n hcall =>
    have hn : (calls c).n = n := by
      rw [hcall]
      rfl
    split
    next => exact hI.refuse h (by decide)
    next hneg =>
      split
      next => exact hI.refuse h (by decide)
      next hheld =>
        rw [← hn] at hneg hheld ⊢
        exact hI.giveBack h (by omega) (by omega)

theorem Inv.expire (h : s.room.pc c = .expired) : Inv limit calls (s.expire limit calls c) := by
  have hwake : (s.room.pc c).toWake = [] := by
    rw [h]
    rfl
  unfold State.expire
  split
  next hflag =>
    exact {
      account := hI.account
      seated := hI.seated.settle hwake hflag
      arrived := hI.arrived_goto rfl (fun h => by cases h) (fun _ _ => id) fun _ _ => id
      front := hI.front }
  next hflag =>
    obtain ⟨hq, hg, hl, -⟩ := logOf_concat s.log (.left c)
    have hc : c ∈ s.waiters := by
      refine hI.seated.mem_of_inLoop ?_ (Bool.eq_false_iff.mpr hflag)
      rw [h]
      rfl
    have hng := hI.seated.apart c hc
    refine hI.grantLocked (by decide) (hI.account.leave hI.seated.nodup hng) rfl rfl
      (hg.trans (append_nil _)) hwake hng (fun d _ hmem => ?_) fun d hd hmem => ?_
    · exact (hq.trans (append_nil _)) ▸ hmem
    · have hmem : d ∈ leftOf s.log ++ [c] := hl ▸ hmem
      exact (mem_append.mp hmem).resolve_right fun hdc => hd (mem_singleton.mp hdc)

theorem Inv.move {late : Bool} {room : Room C Result}
    (h : s.room.next late c = some room) : Inv limit calls { s with room := room } where
  account := hI.account
  seated := hI.seated.next h
  arrived := by
    unfold Room.next at h
    split at h <;> cases h
    · refine hI.arrived_goto rfl ?_ (fun _ _ => id) fun _ _ => id
      cases late <;> exact fun h => by cases h
    next => exact hI.arrived_goto rfl (fun h => by cases h) (fun _ _ => id) fun _ _ => id
    next w cs r _ =>
      refine hI.arrived_goto rfl ?_ (fun _ _ => id) fun _ _ => id
      cases cs <;> exact fun h => by cases h
  front := hI.front

theorem Inv.check (h : s.room.pc c = .woken) : Inv limit calls { s with room := s.room.check c .true } where
  account := hI.account
  seated := hI.seated.check h
  arrived := by
    refine hI.arrived_goto rfl ?_ (fun _ _ => id) fun _ _ => id
    split <;> exact fun h => by cases h
  front := hI.front

theorem Inv.step {a : Action C} (h : step limit calls s a = some s') :
    Inv limit calls s' := by
  cases a with
  | start c =>
    simp only [Semaphore.step] at h
    split at h <;> cases h
    next hpc => exact hI.start hpc
  | move c late =>
    obtain ⟨room, hroom, rfl⟩ := Option.map_eq_some_iff.mp h
    exact hI.move hroom
  | check c =>
    simp only [Semaphore.step] at h
    split at h <;> cases h
    next hpc => exact hI.check hpc
  | expire c =>
    simp only [Semaphore.step] at h
    split at h <;> cases h
    next hpc => exact hI.expire hpc

end

theorem inv_of_reachable (h : (semaphore limit calls).Reachable s) : Inv limit calls s := by
  refine h.invariant (fun s hs => ?_) fun _ _ _ hI _ hs => hI.step hs
  exact Inv.init hs.1 hs.2

def unused : State ℕ := ⟨0, [], ⟨fun _ => .idle, fun _ => false, fun _ => false⟩, []⟩

end Runloom.Semaphore
