import Runloom.SimClock

/-!
# The pump of the simulation

Model of `runloom_netpoll_sim_pump` over the ready ledger, the parked `wait_fd` calls and the logical sleepers of a
single-thread run.  All the parkers are in one pool, committed whenever the pump is called, and each bucket of
`by_fd` has the most recent one first.  Ids and results are history.
-/

namespace Runloom.SimPump

open Transition Binary64 SimLedger SimClock List

/-- A parked `wait_fd`; `deadline` is `none` for -1. -/
structure Wait where
  id : ℕ
  fd : ℤ
  events : ℕ
  deadline : Option ℕ
deriving DecidableEq

/-- What `wait_fd` returns: a mask, 0, or the error of a deadlock. -/
inductive Result where
  | ready (mask : ℕ)
  | timedOut
  | reaped
deriving DecidableEq

structure State where
  clock : Double
  ready : List Entry
  seq : ℕ
  parked : List Wait
  sleepers : List Double
  pending : ℤ → ℕ
  nextId : ℕ
  result : ℕ → Option Result

/-- `pollable` is what `poll` tells of the descriptor, where a pending wake is taken. -/
inductive Action where
  | deliver (plane : Plane) (connId fd dir deliverAt : ℤ)
  | wait (fd : ℤ) (events : ℕ) (timeout : Option ℕ) (pollable : Bool)
  | sleep (wakeAt : Double)
  | wakeSleeper
  | idleAdvance
  | pump

/-- `p->fd == fd && (p->events & mask)`. -/
def Wait.Matches (w : Wait) (e : Entry) : Prop := w.fd = e.fd ∧ e.dir.toNat &&& w.events ≠ 0

instance (w : Wait) (e : Entry) : Decidable (w.Matches e) := inferInstanceAs (Decidable (_ ∧ _))

def Wait.Expired (now : ℕ) (w : Wait) : Prop := ∃ d ∈ w.deadline, d ≤ now

instance (now : ℕ) : DecidablePred (Wait.Expired now)
  | ⟨_, _, _, none⟩ => .isFalse (by simp [Wait.Expired])
  | ⟨_, _, _, some d⟩ => decidable_of_iff (d ≤ now) (by simp [Wait.Expired])

namespace State

def initial : State := ⟨.ofNat 0, [], 0, [], [], fun _ => 0, 0, fun _ => none⟩

def wake (s : State) (w : Wait) (r : Result) : State :=
  { s with parked := s.parked.filter (·.id ≠ w.id), result := update s.result w.id (some r) }

/-- `runloom_pump_drain_expired` and `runloom_netpoll_drain_parked`. -/
def wakeAll (s : State) (ws : List Wait) (r : Result) : State := ws.foldl (fun s w => s.wake w r) s

/-- `runloom_fd_pending_wake_set`. -/
def pendingWakeSet (s : State) (e : Entry) : State :=
  { s with pending := update s.pending e.fd (s.pending e.fd ||| e.dir.toNat) }

/-- `runloom_pump_dispatch_event` wakes the first parker that matches. -/
def dispatchReady (s : State) : List Entry → State × ℕ
  | [] => (s, 0)
  | e :: due =>
    match s.parked.find? (·.Matches e) with
    | some w =>
      let (t, woke) := dispatchReady (s.wake w (.ready (e.dir.toNat &&& w.events))) due
      (t, woke + 1)
    | none => dispatchReady (s.pendingWakeSet e) due

/-- `runloom_dh_peek_deadline_global`. -/
def peekDeadline (s : State) : Option ℕ := (s.parked.filterMap (·.deadline)).min?

/-- What `runloom_sim_dispatch_ready` takes out of the ledger, and what it keeps there. -/
def due (s : State) : List Entry := (dispatchDuePlane s.ready (logicalNs s.clock) .legacy).1

def keep (s : State) : State := { s with ready := (dispatchDuePlane s.ready (logicalNs s.clock) .legacy).2 }

/-- From the clock on: it is advanced, and what expires at the new time is fired in the same call. -/
def advance (s : State) : State :=
  match simAdvanceClock s.clock s.sleepers.head? (targetNs (readyNextNs s.ready s.clock) s.peekDeadline) with
  | some (advanced, clock) => { s with clock }.wakeAll (s.parked.filter (·.Expired advanced)) .timedOut
  | none => s.wakeAll s.parked .reaped

/-- `runloom_netpoll_sim_pump`. -/
def pump (s : State) : State :=
  let (t, woke) := s.keep.dispatchReady s.due
  if 0 < woke then t else t.advance

/-- `runloom_netpoll_wait_fd`, with `runloom_fd_pending_wake_consume`. -/
def wait (s : State) (fd : ℤ) (events : ℕ) (timeout : Option ℕ) (pollable : Bool) : State :=
  let taken := s.pending fd &&& events
  let t := { s with pending := update s.pending fd (s.pending fd ^^^ taken), nextId := s.nextId + 1 }
  if taken ≠ 0 ∧ pollable then { t with result := update s.result s.nextId (some (.ready taken)) }
  else { t with parked := ⟨s.nextId, fd, events, timeout.map (logicalNs s.clock + ·)⟩ :: s.parked }

end State

/-- Between two pumps the fibers record deliveries, wait and sleep, and the drain wakes the sleepers that are due. -/
def simPump : System State Action where
  init s := s = .initial
  step s
    | .deliver plane connId fd dir deliverAt =>
      some { s with ready := s.ready ++ [⟨deliverAt, connId, s.seq, fd, dir, plane⟩], seq := s.seq + 1 }
    | .wait fd events timeout pollable => some (s.wait fd events timeout pollable)
    | .sleep wakeAt => some { s with sleepers := s.sleepers.orderedInsert (· ≤ ·) wakeAt }
    | .wakeSleeper =>
      match s.sleepers with
      | v :: sleepers => if v ≤ s.clock then some { s with sleepers } else none
      | [] => none
    | .idleAdvance =>
      match s.sleepers with
      | v :: _ => if s.parked = [] ∧ ¬v ≤ s.clock then some { s with clock := v } else none
      | [] => none
    | .pump => some s.pump

/-! ## Who is woken -/

structure Ok (s : State) : Prop where
  nodup : (s.parked.map (·.id)).Nodup
  waiting : ∀ w ∈ s.parked, w.id < s.nextId ∧ s.result w.id = none
  unused : ∀ id, s.nextId ≤ id → s.result id = none

/-- `wait_fd` returned with readiness. -/
def Ready (w : Wait) (s : State) : Prop :=
  (∃ m, m ≠ 0 ∧ s.result w.id = some (.ready m)) ∧ w.id < s.nextId ∧ ∀ v ∈ s.parked, v.id ≠ w.id

variable {s t : State} {w v : Wait} {e : Entry} {r : Result}

theorem Ok.eq_of_id (hI : Ok s) (hv : v ∈ s.parked) (hw : w ∈ s.parked) (h : v.id = w.id) : v = w :=
  inj_on_of_nodup_map hI.nodup hv hw h

theorem Ok.wake (hI : Ok s) (hv : v.id < s.nextId) : Ok (s.wake v r) where
  nodup := hI.nodup.sublist (filter_sublist.map _)
  waiting w hw := by
    obtain ⟨hw, hne⟩ := mem_filter.mp hw
    obtain ⟨hlt, hnone⟩ := hI.waiting w hw
    exact ⟨hlt, (update_of_ne (of_decide_eq_true hne) _ _).trans hnone⟩
  unused id hid := (update_of_ne (hv.trans_le hid).ne' _ _).trans (hI.unused id hid)

theorem Ready.wake (h : Ready w s) (hne : v.id ≠ w.id) : Ready w (s.wake v r) := by
  obtain ⟨⟨m, hm, hres⟩, hlt, hgone⟩ := h
  refine ⟨⟨m, hm, (update_of_ne hne.symm _ _).trans hres⟩, hlt, fun u hu => ?_⟩
  exact hgone u (mem_filter.mp hu).1

theorem mem_wake (h : w ∈ s.parked) (hne : v.id ≠ w.id) : w ∈ (s.wake v r).parked :=
  mem_filter.mpr ⟨h, decide_eq_true hne.symm⟩

/-- What one wake of another parker keeps, the wakes of a list of them keep. -/
theorem wakeAll_induction {P : State → Prop} {ws : List Wait}
    (hstep : ∀ s, ∀ v ∈ ws, P s → P (s.wake v r)) (hs : P s) : P (s.wakeAll ws r) := by
  induction ws generalizing s with
  | nil => exact hs
  | cons v ws ih =>
    exact ih (fun s u hu => hstep s u (mem_cons_of_mem v hu)) (hstep s v mem_cons_self hs)

theorem dispatchReady_induction {P : State → Prop} (due : List Entry)
    (hwake : ∀ s e v, s.parked.find? (·.Matches e) = some v → P s →
      P (s.wake v (.ready (e.dir.toNat &&& v.events))))
    (hpending : ∀ s e, P s → P (s.pendingWakeSet e)) (hs : P s) : P (s.dispatchReady due).1 := by
  induction due generalizing s with
  | nil => exact hs
  | cons e due ih =>
    rw [State.dispatchReady]
    split
    next v hv => exact ih (hwake s e v hv hs)
    next => exact ih (hpending s e hs)

theorem Ok.dispatchReady (hI : Ok s) (due : List Entry) : Ok (s.dispatchReady due).1 := by
  refine dispatchReady_induction due (fun s e v hv hI => ?_) (fun s e hI => ⟨hI.nodup, hI.waiting, hI.unused⟩) hI
  exact hI.wake (hI.waiting v (mem_of_find?_eq_some hv)).1

theorem Ready.dispatchReady (h : Ready w s) (due : List Entry) : Ready w (s.dispatchReady due).1 := by
  refine dispatchReady_induction due (fun s e v hv h => ?_) (fun s e h => h) h
  exact h.wake (h.2.2 v (mem_of_find?_eq_some hv))

/-- The parker that an entry wakes is ready. -/
theorem Ok.ready_wake (hI : Ok s) (hv : s.parked.find? (·.Matches e) = some v) :
    Ready v (s.wake v (.ready (e.dir.toNat &&& v.events))) := by
  have hmatch : v.Matches e := by simpa using find?_some hv
  refine ⟨⟨_, hmatch.2, update_self _ _ _⟩, (hI.waiting v (mem_of_find?_eq_some hv)).1, fun u hu => ?_⟩
  exact of_decide_eq_true (mem_filter.mp hu).2

theorem parked_or_ready (hI : Ok s) (hw : w ∈ s.parked) (due : List Entry) :
    w ∈ (s.dispatchReady due).1.parked ∨ Ready w (s.dispatchReady due).1 := by
  refine (dispatchReady_induction (P := fun s => Ok s ∧ (w ∈ s.parked ∨ Ready w s)) due ?_ ?_ ⟨hI, .inl hw⟩).2
  · rintro s e v hv ⟨hI, hw⟩
    refine ⟨hI.wake (hI.waiting v (mem_of_find?_eq_some hv)).1, ?_⟩
    rcases hw with hw | hw
    · by_cases hid : v.id = w.id
      · obtain rfl := hI.eq_of_id (mem_of_find?_eq_some hv) hw hid
        exact .inr (hI.ready_wake hv)
      · exact .inl (mem_wake hw hid)
    · exact .inr (hw.wake (hw.2.2 v (mem_of_find?_eq_some hv)))
  · rintro s e ⟨hI, hw⟩
    exact ⟨⟨hI.nodup, hI.waiting, hI.unused⟩, hw⟩

/-! ## A delivery before the deadline -/

/-- The entries that match `w`, and the parkers before it that one of these could wake. -/
def owed (due : List Entry) (w : Wait) : ℕ := due.countP (w.Matches ·)

def rivals (due : List Entry) (w : Wait) (before : List Wait) : ℕ :=
  before.countP fun v => ∃ e ∈ due, v.Matches e ∧ w.Matches e

variable {due : List Entry}

theorem rivals_mono {before before' : List Wait} (h : before' <+ before) :
    rivals due w before' ≤ rivals (e :: due) w before := by
  refine h.countP_le.trans (countP_mono_left fun v _ hv => ?_)
  obtain ⟨e', he', hm⟩ := of_decide_eq_true hv
  exact decide_eq_true ⟨e', mem_cons_of_mem e he', hm⟩

theorem rivals_wake {before : List Wait} (hv : v ∈ before) (hm : v.Matches e) (hw : w.Matches e) :
    rivals due w (before.filter (·.id ≠ v.id)) < rivals (e :: due) w before := by
  obtain ⟨l₁, l₂, rfl⟩ := append_of_mem hv
  have hfilter : (l₁ ++ v :: l₂).filter (·.id ≠ v.id) = l₁.filter (·.id ≠ v.id) ++ l₂.filter (·.id ≠ v.id) := by
    simp
  rw [hfilter]
  refine (rivals_mono (e := e) (filter_sublist.append filter_sublist)).trans_lt ?_
  have hp : decide (∃ e' ∈ e :: due, v.Matches e' ∧ w.Matches e') = true :=
    decide_eq_true ⟨e, mem_cons_self, hm, hw⟩
  rw [rivals, rivals, countP_append, countP_append, countP_cons, if_pos hp]
  omega

/-- With more entries for it than rivals before it, `w` is woken by one of them. -/
theorem ready_of_rivals_lt {before after : List Wait} (hI : Ok s)
    (hs : s.parked = before ++ w :: after) (h : rivals due w before < owed due w) :
    Ready w (s.dispatchReady due).1 := by
  induction due generalizing s before after with
  | nil => exact absurd h (Nat.not_lt_zero _)
  | cons e due ih =>
    have hw : w ∈ s.parked := by simp [hs]
    rw [State.dispatchReady]
    split
    next v hv =>
      have hvs := mem_of_find?_eq_some hv
      by_cases hid : v.id = w.id
      · obtain rfl := hI.eq_of_id hvs hw hid
        exact (hI.ready_wake hv).dispatchReady due
      · have hparked : ∀ r, (s.wake v r).parked =
            before.filter (·.id ≠ v.id) ++ w :: after.filter (·.id ≠ v.id) := by
          intro r
          simp only [State.wake, hs, filter_append, filter_cons]
          rw [if_pos (by simpa using Ne.symm hid)]
        refine ih (hI.wake (hI.waiting v hvs).1) (hparked _) ?_
        by_cases hm : w.Matches e
        · have hbefore : v ∈ before := by
            rw [hs, find?_append, find?_cons_of_pos (by simpa using hm)] at hv
            cases hb : before.find? (·.Matches e) with
            | none => exact absurd (congrArg Wait.id (by simpa [hb] using hv)).symm hid
            | some u =>
              obtain rfl : u = v := by simpa [hb] using hv
              exact mem_of_find?_eq_some hb
          have hlt : rivals due w (before.filter (·.id ≠ v.id)) < rivals (e :: due) w before :=
            rivals_wake hbefore (by simpa using find?_some hv) hm
          rw [owed, countP_cons_of_pos (by simpa using hm)] at h
          unfold owed
          omega
        · have hle : rivals due w (before.filter (·.id ≠ v.id)) ≤ rivals (e :: due) w before :=
            rivals_mono filter_sublist
          rw [owed, countP_cons_of_neg (by simpa using hm)] at h
          exact hle.trans_lt h
    next hnone =>
      have hm : ¬w.Matches e := by simpa using find?_eq_none.mp hnone w hw
      rw [owed, countP_cons_of_neg (by simpa using hm)] at h
      exact ih (s := s.pendingWakeSet e) ⟨hI.nodup, hI.waiting, hI.unused⟩ hs ((rivals_mono (Sublist.refl _)).trans_lt h)

/-- The dispatch leaves the clock, the sleepers and the ledger alone. -/
theorem dispatchReady_frame (s : State) (due : List Entry) :
    (s.dispatchReady due).1.clock = s.clock ∧ (s.dispatchReady due).1.sleepers = s.sleepers ∧
      (s.dispatchReady due).1.ready = s.ready :=
  dispatchReady_induction (P := fun t => t.clock = s.clock ∧ t.sleepers = s.sleepers ∧ t.ready = s.ready) due
    (fun _ _ _ _ h => h) (fun _ _ h => h) ⟨rfl, rfl, rfl⟩

theorem dispatchReady_zero (h : (s.dispatchReady due).2 = 0) :
    (s.dispatchReady due).1.parked = s.parked ∧ ∀ e ∈ due, ∀ w ∈ s.parked, ¬w.Matches e := by
  induction due generalizing s with
  | nil => exact ⟨rfl, nofun⟩
  | cons e due ih =>
    rw [State.dispatchReady] at h ⊢
    split at h
    next => exact absurd h (Nat.succ_ne_zero _)
    next hnone =>
      obtain ⟨hparked, hrest⟩ := ih h
      refine ⟨hparked, fun e' he' w hw => ?_⟩
      rcases mem_cons.mp he' with rfl | he'
      · simpa using find?_eq_none.mp hnone w hw
      · exact hrest e' he' w hw

/-- Something else comes before `d`. -/
def Sooner (s : State) (d : ℤ) : Prop :=
  (∃ v ∈ s.sleepers.head?, (logicalNs v : ℤ) < d) ∨ (∃ v ∈ s.parked, ∃ d' ∈ v.deadline, (d' : ℤ) < d) ∨
    ∃ e ∈ s.ready, e.plane = .legacy ∧ (logicalNs s.clock : ℤ) < e.deliverAt ∧ e.deliverAt < d

/-- There are enough due entries for the parkers they match; where there are none, the clock is not advanced to a
deadline at the very time of a delivery for it. -/
structure Apart (s : State) : Prop where
  enough : ∀ w before after, s.parked = before ++ w :: after → 0 < owed s.due w →
    rivals s.due w before < owed s.due w
  apart : (∀ e ∈ s.due, ∀ w ∈ s.parked, ¬w.Matches e) → ∀ e ∈ s.ready, e.plane = .legacy →
    (logicalNs s.clock : ℤ) < e.deliverAt → ∀ w ∈ s.parked, w.Matches e → w.deadline = some e.deliverAt.toNat →
      Sooner s e.deliverAt

/-- `w` is parked and the ledger has its delivery, or it is ready. -/
def Served (w : Wait) (e : Entry) (s : State) : Prop := w ∈ s.parked ∧ e ∈ s.ready ∨ Ready w s

theorem exists_targetNs_le {o p : Option ℕ} {d : ℕ} (h : (∃ a ∈ o, a ≤ d) ∨ ∃ a ∈ p, a ≤ d) :
    ∃ a ∈ targetNs o p, a ≤ d := by
  cases o <;> cases p <;> simp_all [targetNs]
  split <;> omega

theorem exists_min?_le {l : List ℕ} {a d : ℕ} (h : a ∈ l) (hd : a ≤ d) : ∃ m ∈ l.min?, m ≤ d := by
  obtain ⟨m, hm⟩ := Option.isSome_iff_exists.mp (isSome_min?_of_mem h)
  exact ⟨m, hm, ((min?_eq_some_iff.mp hm).2 a h).trans hd⟩

theorem exists_advance_le {d : ℕ} (h : Sooner s (d + 1)) : ∃ advanced clock, advanced ≤ d ∧
    simAdvanceClock s.clock s.sleepers.head? (targetNs (readyNextNs s.ready s.clock) s.peekDeadline) =
      some (advanced, clock) := by
  have htarget : ∃ a ∈ targetNs (s.sleepers.head?.map logicalNs)
      (targetNs (readyNextNs s.ready s.clock) s.peekDeadline), a ≤ d := by
    apply exists_targetNs_le
    rcases h with ⟨v, hv, hd⟩ | ⟨v, hv, d', hd', hd⟩ | ⟨e, he, hp, hf, hd⟩
    · exact .inl ⟨_, Option.mem_map_of_mem _ hv, by omega⟩
    · exact .inr (exists_targetNs_le (.inr (exists_min?_le (mem_filterMap.mpr ⟨v, hv, hd'⟩) (by omega))))
    · refine .inr (exists_targetNs_le (.inl (exists_min?_le (mem_map_of_mem (mem_filter.mpr ⟨he, ?_⟩)) ?_)))
      · exact decide_eq_true ⟨hp, hf⟩
      · omega
  obtain ⟨a, ha, hle⟩ := htarget
  exact ⟨a, _, hle, by rw [simAdvanceClock, Option.mem_def.mp ha]; rfl⟩

theorem Ready.wakeAll {ws : List Wait} (h : Ready w s) (hws : ∀ v ∈ ws, v.id ≠ w.id) : Ready w (s.wakeAll ws r) :=
  wakeAll_induction (P := Ready w) (fun _ v hv h => h.wake (hws v hv)) h

theorem Ok.wakeAll {ws : List Wait} (hI : Ok s) (hws : ∀ v ∈ ws, v ∈ s.parked) : Ok (s.wakeAll ws r) := by
  refine (wakeAll_induction (P := fun t => Ok t ∧ t.nextId = s.nextId) (fun t v hv h => ?_) ⟨hI, rfl⟩).1
  exact ⟨h.1.wake (h.2 ▸ (hI.waiting v (hws v hv)).1), h.2⟩

theorem Ok.advance (hI : Ok s) : Ok s.advance := by
  unfold State.advance
  split
  next clock _ => exact Ok.wakeAll (s := { s with clock }) ⟨hI.nodup, hI.waiting, hI.unused⟩ fun v hv => (mem_filter.mp hv).1
  next => exact hI.wakeAll fun _ hv => hv

theorem Ready.advance (h : Ready w s) : Ready w s.advance := by
  unfold State.advance
  split
  next clock _ => exact Ready.wakeAll (s := { s with clock }) h fun v hv => h.2.2 v (mem_filter.mp hv).1
  next => exact h.wakeAll h.2.2

/-- `w` does not expire while its delivery is to come. -/
theorem parked_advance (hI : Ok s) (hw : w ∈ s.parked) (he : e ∈ s.ready) (hp : e.plane = .legacy)
    (hfuture : (logicalNs s.clock : ℤ) < e.deliverAt) (ht : ∀ t ∈ w.deadline, e.deliverAt ≤ t)
    (hsooner : w.deadline = some e.deliverAt.toNat → Sooner s e.deliverAt) :
    w ∈ s.advance.parked ∧ e ∈ s.advance.ready := by
  obtain ⟨advanced, clock, hle, heq⟩ :=
    exists_advance_le (d := e.deliverAt.toNat) (.inr (.inr ⟨e, he, hp, hfuture, by omega⟩))
  have hexpired : ¬w.Expired advanced := by
    rintro ⟨d, hd, hdle⟩
    have hde := ht d hd
    obtain rfl : d = e.deliverAt.toNat := by omega
    have hbefore : Sooner s (↑(e.deliverAt.toNat - 1) + 1) := by
      convert hsooner hd using 1
      omega
    obtain ⟨_, _, hle', heq'⟩ := exists_advance_le hbefore
    rw [heq, Option.some.injEq, Prod.mk.injEq] at heq'
    omega
  have hother : ∀ v ∈ s.parked.filter (·.Expired advanced), v.id ≠ w.id := fun v hv hid => by
    obtain ⟨hvs, hv⟩ := mem_filter.mp hv
    obtain rfl := hI.eq_of_id hvs hw hid
    exact hexpired (of_decide_eq_true hv)
  rw [State.advance, heq]
  exact wakeAll_induction (P := fun t => w ∈ t.parked ∧ e ∈ t.ready)
    (fun t v hv h => ⟨mem_wake h.1 (hother v hv), h.2⟩) ⟨hw, he⟩

theorem mem_dispatchDuePlane (ready : List Entry) (now : ℤ) (plane : Plane) (e : Entry) :
    (e ∈ (dispatchDuePlane ready now plane).1 ↔ e ∈ ready ∧ e.Due now plane) ∧
      (e ∈ (dispatchDuePlane ready now plane).2 ↔ e ∈ ready ∧ ¬e.Due now plane) := by
  simp [dispatchDuePlane, partition_eq_filter_filter, (perm_qsort ready).mem_iff]

theorem pump_eq (s : State) : s.pump = if 0 < (s.keep.dispatchReady s.due).2 then (s.keep.dispatchReady s.due).1
    else (s.keep.dispatchReady s.due).1.advance := rfl

theorem Ok.keep (hI : Ok s) : Ok s.keep := ⟨hI.nodup, hI.waiting, hI.unused⟩

section Pump

variable (hI : Ok s) (hA : Apart s) (hw : w ∈ s.parked) (he : e ∈ s.ready) (hm : w.Matches e) (hp : e.plane = .legacy)

include hI hA hw he hm hp

/-- A delivery that is due wakes `w`. -/
theorem ready_pump_of_due (hdue : e.deliverAt ≤ logicalNs s.clock) : Ready w s.pump := by
  have hmem : e ∈ s.due := (mem_dispatchDuePlane _ _ _ _).1.mpr ⟨he, hdue, hp⟩
  obtain ⟨before, after, hparked⟩ := append_of_mem hw
  have howed : 0 < owed s.due w := countP_pos_iff.mpr ⟨e, hmem, decide_eq_true hm⟩
  have hready := ready_of_rivals_lt hI.keep hparked (hA.enough w before after hparked howed)
  rw [pump_eq]
  split
  · exact hready
  · exact hready.advance

/-- While its delivery is to come, `w` stays parked, unless another one wakes it. -/
theorem served_pump (ht : ∀ t ∈ w.deadline, e.deliverAt ≤ t) : Served w e s.pump := by
  by_cases hdue : e.deliverAt ≤ logicalNs s.clock
  · exact .inr (ready_pump_of_due hI hA hw he hm hp hdue)
  have he₀ : e ∈ s.keep.ready := (mem_dispatchDuePlane _ _ _ _).2.mpr ⟨he, fun h => hdue h.1⟩
  obtain ⟨hclock, hsleepers, hledger⟩ := dispatchReady_frame s.keep s.due
  rw [pump_eq]
  rcases parked_or_ready hI.keep hw s.due with hparked | hready
  · split
    · exact .inl ⟨hparked, hledger ▸ he₀⟩
    next hwoke =>
      -- nothing was woken, so that the pump goes on with the clock
      obtain ⟨hsame, hnone⟩ := dispatchReady_zero (by omega : (s.keep.dispatchReady s.due).2 = 0)
      refine .inl (parked_advance (hI.keep.dispatchReady _) hparked (hledger ▸ he₀) hp ?_ ht fun hd => ?_)
      · rw [hclock]
        exact not_le.mp hdue
      · have hsooner := hA.apart hnone e he hp (not_le.mp hdue) w hw hm hd
        simp only [Sooner, hclock, hsleepers, hledger, hsame]
        refine hsooner.imp_right (Or.imp_right ?_)
        rintro ⟨e', he', hp', hfuture, hlt⟩
        exact ⟨e', (mem_dispatchDuePlane _ _ _ _).2.mpr ⟨he', fun h => absurd h.1 (not_le.mpr hfuture)⟩, hp',
          hfuture, hlt⟩
  · split
    · exact .inr hready
    · exact .inr hready.advance

end Pump

theorem Ok.pump (hI : Ok s) : Ok s.pump := by
  rw [pump_eq]
  split
  · exact hI.keep.dispatchReady _
  · exact (hI.keep.dispatchReady _).advance

theorem Ready.pump (h : Ready w s) : Ready w s.pump := by
  have h₀ : Ready w s.keep := h
  rw [pump_eq]
  split
  · exact h₀.dispatchReady _
  · exact (h₀.dispatchReady _).advance

theorem Ok.wait (hI : Ok s) (fd : ℤ) (events : ℕ) (timeout : Option ℕ) (pollable : Bool) :
    Ok (s.wait fd events timeout pollable) := by
  have hne : ∀ w ∈ s.parked, w.id ≠ s.nextId := fun w hw => (hI.waiting w hw).1.ne
  dsimp only [State.wait]
  split
  · exact ⟨hI.nodup, fun w hw => ⟨Nat.lt_succ_of_lt (hI.waiting w hw).1,
      (update_of_ne (hne w hw) _ _).trans (hI.waiting w hw).2⟩,
      fun id hid => (update_of_ne (Nat.lt_of_succ_le hid).ne' _ _).trans (hI.unused id (Nat.le_of_succ_le hid))⟩
  · refine ⟨?_, ?_, fun id hid => hI.unused id (Nat.le_of_succ_le hid)⟩
    · exact nodup_cons.mpr ⟨fun h => by
        obtain ⟨w, hw, hid⟩ := mem_map.mp h
        exact hne w hw hid, hI.nodup⟩
    · intro w hw
      rcases mem_cons.mp hw with rfl | hw
      · exact ⟨Nat.lt_succ_self _, hI.unused _ le_rfl⟩
      · exact ⟨Nat.lt_succ_of_lt (hI.waiting w hw).1, (hI.waiting w hw).2⟩

theorem Ready.wait (h : Ready w s) (fd : ℤ) (events : ℕ) (timeout : Option ℕ) (pollable : Bool) :
    Ready w (s.wait fd events timeout pollable) := by
  obtain ⟨⟨m, hm, hres⟩, hlt, hgone⟩ := h
  dsimp only [State.wait]
  split
  · exact ⟨⟨m, hm, (update_of_ne hlt.ne _ _).trans hres⟩, Nat.lt_succ_of_lt hlt, hgone⟩
  · refine ⟨⟨m, hm, hres⟩, Nat.lt_succ_of_lt hlt, fun v hv => ?_⟩
    rcases mem_cons.mp hv with rfl | hv
    · exact hlt.ne'
    · exact hgone v hv

/-- Between the pumps only a new wait touches the parkers and the results. -/
theorem step_cases {a : Action} (hs : simPump.step s a = some t) :
    (a = .pump ∧ t = s.pump) ∨ (∃ fd events timeout pollable, t = s.wait fd events timeout pollable) ∨
      (t.parked = s.parked ∧ t.nextId = s.nextId ∧ t.result = s.result ∧ s.ready ⊆ t.ready) := by
  cases a with
  | deliver plane connId fd dir deliverAt =>
    cases hs
    exact .inr (.inr ⟨rfl, rfl, rfl, subset_append_left _ _⟩)
  | wait fd events timeout pollable =>
    cases hs
    exact .inr (.inl ⟨fd, events, timeout, pollable, rfl⟩)
  | sleep wakeAt =>
    cases hs
    exact .inr (.inr ⟨rfl, rfl, rfl, Subset.refl _⟩)
  | wakeSleeper | idleAdvance =>
    simp only [simPump] at hs
    split at hs
    · obtain ⟨-, ⟨⟩⟩ := Option.ite_none_right_eq_some.mp hs
      exact .inr (.inr ⟨rfl, rfl, rfl, Subset.refl _⟩)
    · cases hs
  | pump =>
    cases hs
    exact .inl ⟨rfl, rfl⟩

theorem Ok.step {a : Action} (hI : Ok s) (hs : simPump.step s a = some t) : Ok t := by
  rcases step_cases hs with ⟨-, rfl⟩ | ⟨fd, events, timeout, pollable, rfl⟩ | ⟨hparked, hnext, hres, -⟩
  · exact hI.pump
  · exact hI.wait fd events timeout pollable
  · exact ⟨hparked ▸ hI.nodup, by rw [hparked, hnext, hres]; exact hI.waiting, by rw [hnext, hres]; exact hI.unused⟩

theorem Reachable.ok (h : simPump.Reachable s) : Ok s := by
  refine h.invariant (P := Ok) ?_ fun s a t hI _ hs => hI.step hs
  rintro s rfl
  exact ⟨.nil, nofun, fun _ _ => rfl⟩

theorem Served.step {a : Action} (h : Served w e s) (hI : Ok s) (hm : w.Matches e) (hp : e.plane = .legacy)
    (ht : ∀ t ∈ w.deadline, e.deliverAt ≤ t) (hA : a = .pump → Apart s) (hs : simPump.step s a = some t) :
    Served w e t := by
  rcases step_cases hs with ⟨ha, rfl⟩ | ⟨fd, events, timeout, pollable, rfl⟩ | ⟨hparked, hnext, hres, hready⟩
  · rcases h with ⟨hw, he⟩ | h
    · exact served_pump hI (hA ha) hw he hm hp ht
    · exact .inr h.pump
  · rcases h with ⟨hw, he⟩ | h
    · refine .inl ?_
      dsimp only [State.wait]
      split
      · exact ⟨hw, he⟩
      · exact ⟨mem_cons_of_mem _ hw, he⟩
    · exact .inr (h.wait fd events timeout pollable)
  · rcases h with ⟨hw, he⟩ | h
    · exact .inl ⟨hparked ▸ hw, hready he⟩
    · exact .inr (by rw [Ready, hparked, hnext, hres]; exact h)

/-- A parked wait with a delivery not after its deadline is woken by readiness only, as soon as that is due. -/
theorem readiness_beats_timeout {as : List Action} (hs : simPump.Reachable s) (hw : w ∈ s.parked) (he : e ∈ s.ready)
    (hm : w.Matches e) (hp : e.plane = .legacy) (ht : ∀ t ∈ w.deadline, e.deliverAt ≤ t)
    (hA : simPump.Meets (fun s a => a = .pump → Apart s) s as) (hr : simPump.run s as = some t) :
    (w ∈ t.parked ∧ t.result w.id = none ∨ ∃ m, m ≠ 0 ∧ t.result w.id = some (.ready m)) ∧
      (w ∈ t.parked → e.deliverAt ≤ logicalNs t.clock → Apart t →
        ∃ m, m ≠ 0 ∧ t.pump.result w.id = some (.ready m)) := by
  obtain ⟨hI, hserved⟩ := hA.invariant (P := fun s => Ok s ∧ Served w e s)
    (fun s a t h hA hs => ⟨h.1.step hs, h.2.step h.1 hm hp ht hA hs⟩) ⟨Reachable.ok hs, .inl ⟨hw, he⟩⟩ hr
  refine ⟨hserved.imp (fun h => ⟨h.1, (hI.waiting w h.1).2⟩) fun h => h.1, fun hw hdue hA => ?_⟩
  rcases hserved with ⟨-, he⟩ | h
  · exact (ready_pump_of_due hI hA hw he hm hp hdue).1
  · exact absurd rfl (h.2.2 w hw)

/-- A wait of 100 ns and a delivery at time 0: the first pump wakes it with `READ`. -/
theorem readiness_beats_timeout_due :
    ∃ s, simPump.Reachable s ∧ s.parked = [⟨0, 5, 1, some 100⟩] ∧ ∃ m, m ≠ 0 ∧ s.pump.result 0 = some (.ready m) := by
  obtain ⟨s, hr, hparked, hready, hdue, hclock⟩ := simPump.reaches
    (fun s => s.parked = [⟨0, 5, 1, some 100⟩] ∧ s.ready = [⟨0, 0, 0, 5, 1, .legacy⟩] ∧
      s.due = [⟨0, 0, 0, 5, 1, .legacy⟩] ∧ logicalNs s.clock = 0)
    (s := .initial) [.deliver .legacy 0 5 1 0, .wait 5 1 (some 100) false] rfl (by decide +kernel)
  have hA : Apart s := by
    constructor
    · intro w before after h _
      rw [hparked] at h
      obtain ⟨rfl, rfl, rfl⟩ : before = [] ∧ w = ⟨0, 5, 1, some 100⟩ ∧ after = [] := by
        cases before <;> simp_all
      rw [hdue]
      decide +kernel
    · simp [hready, hclock]
  refine ⟨s, hr, hparked, ?_⟩
  exact (readiness_beats_timeout (w := ⟨0, 5, 1, some 100⟩) (e := ⟨0, 0, 0, 5, 1, .legacy⟩) hr
    (by simp [hparked]) (by simp [hready]) (by decide) rfl (by simp) (show simPump.Meets _ s [] from trivial)
    (show simPump.run s [] = some s from rfl)).2 (by simp [hparked]) (by simp [hclock]) hA

/-- The pump advances the clock to a delivery and a deadline, and fires the timeout. -/
theorem timeout_beats_delivery :
    ∃ s w e, simPump.Reachable s ∧ w ∈ s.parked ∧ e ∈ s.ready ∧ w.Matches e ∧ e.plane = .legacy ∧
      w.deadline = some 100 ∧ e.deliverAt = 100 ∧ logicalNs s.clock < 100 ∧ s.pump.result w.id = some .timedOut := by
  obtain ⟨s, hr, hw, he, hclock, hres⟩ := simPump.reaches
    (fun s => ⟨0, 5, 1, some 100⟩ ∈ s.parked ∧ ⟨100, 0, 0, 5, 1, .legacy⟩ ∈ s.ready ∧
      logicalNs s.clock < 100 ∧ s.pump.result 0 = some .timedOut)
    (s := .initial) [.deliver .legacy 0 5 1 100, .wait 5 1 (some 100) false] rfl (by decide +kernel)
  exact ⟨s, _, _, hr, hw, he, by decide, rfl, rfl, rfl, hclock, hres⟩

end Runloom.SimPump
