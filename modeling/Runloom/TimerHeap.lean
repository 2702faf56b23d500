import Runloom.Heap.OneBased
import Runloom.Transition.History

/-!
# The timer heap of a scheduler

Model of `runloom_timer_push`, `runloom_timer_pop`, `runloom_sched_drain_timers` and `runloom_sched_release_timers`.
The heap belongs to the thread of its scheduler, so that a call is one step; the answers of the exchanges on
`parked_safe` are a part of a drain. Deadlines are of a linear order: the clock gives no NaN.
-/

namespace Runloom.TimerHeap

open Transition Heap

/-- `runloom_timer_entry_t`. -/
structure Entry (F T : Type*) where
  deadline : T
  g : F
  logical : Bool

/-- `heap` is `timer_heap`; `ready` and `woken` are the fibers that the drains have woken. `taken` and `dropped`
list the calls of `runloom_g_incref` and `runloom_g_decref` for timers. -/
structure State (F T H : Type*) where
  heap : ℕ → Entry F T
  size : ℕ
  cap : ℕ
  refcount : F → ℤ
  taken : List F
  dropped : List F
  ready : List F
  woken : List (H × F)

variable {F T H : Type*}

namespace State

def entries (s : State F T H) : List (Entry F T) := (List.range' 1 s.size).map s.heap

/-- `runloom_timer_grow`: `none` for -1. -/
def timerGrow (s : State F T H) ( realloc : Bool) : Option (State F T H) :=
  if realloc then some { s with cap := if s.cap = 0 then 16 else s.cap * 2 } else none

def room (s : State F T H) ( realloc : Bool) : Option (State F T H) :=
  if s.cap < s.size + 1 then s.timerGrow realloc else some s

variable [DecidableEq F]

/-- `runloom_g_incref`. -/
def incref (s : State F T H) (g : F) : State F T H :=
  { s with refcount := update s.refcount g (s.refcount g + 1), taken := g :: s.taken }

/-- `runloom_g_decref`. -/
def decref (s : State F T H) (g : F) : State F T H :=
  { s with refcount := update s.refcount g (s.refcount g - 1), dropped := g :: s.dropped }

end State

variable [LinearOrder T]

def Entry.earlier (a b : Entry F T) : Bool := decide (a.deadline < b.deadline)

namespace State

/-- `runloom_timer_pop`: `none` for 0. -/
def timerPop (s : State F T H) : Option (Entry F T) × State F T H :=
  if s.size = 0 then (none, s)
  else
    let out := s.heap 1
    let last := s.heap s.size
    let s := { s with size := s.size - 1 }
    if s.size = 0 then (some out, s)
    else (some out, { s with heap := OneBased.holeDown Entry.earlier s.heap s.size 1 last })

theorem timerPop_size {s t : State F T H} {e : Entry F T} (h : s.timerPop = (some e, t)) : t.size < s.size := by
  unfold timerPop at h
  split at h
  next => cases h
  next hs =>
    dsimp only at h
    split at h <;> cases h
    · show s.size - 1 < s.size
      omega
    · show s.size - 1 < s.size
      omega

variable [DecidableEq F]

/-- `runloom_timer_push`: `none` for -1. -/
def timerPush (s : State F T H) (deadline : T) (g : F) (logical : Bool) ( realloc : Bool) : Option (State F T H) :=
  match s.room realloc with
  | none => none
  | some s =>
    let s := s.incref g
    let e : Entry F T := ⟨deadline, g, logical⟩
    let s := { s with size := s.size + 1 }
    some { s with heap := OneBased.holeUp Entry.earlier s.heap s.size e }

/-- The exchange on `parked_safe`: `none` if a wake was first, or else the `park_hub`. -/
def fire (s : State F T H) (g : F) : Option (Option H) → State F T H
  | none => s
  | some (some h) => { s with woken := s.woken ++ [(h, g)] }
  | some none => { s with ready := s.ready ++ [g] }

/-- `runloom_sched_drain_timers`, with the entries popped. `cas k` answers the exchange of pop `k`. -/
def drainTimers (s : State F T H) (now : T) (cas : ℕ → Option (Option H)) : List (Entry F T) × State F T H :=
  if 0 < s.size then
    if now < (s.heap 1).deadline then ([], s)
    else
      match h : s.timerPop with
      | (none, _) => ([], s)
      | (some e, t) =>
        let (popped, u) := ((t.fire e.g (cas 0)).decref e.g).drainTimers now fun k => cas (k + 1)
        (e :: popped, u)
  else ([], s)
termination_by s.size
decreasing_by
  have hsize : ((t.fire e.g (cas 0)).decref e.g).size = t.size := by
    unfold fire decref
    split <;> rfl
  rw [hsize]
  exact timerPop_size h

/-- `runloom_sched_release_timers`.  Before the first growth there is no array. -/
def releaseTimers (s : State F T H) : State F T H :=
  if s.cap = 0 then s else { s.entries.foldl (fun s e => s.decref e.g) s with size := 0 }

end State

/-- `other g n` is what the rest of the program does to a reference count. -/
inductive Call (F T H : Type*) where
  | push (deadline : T) (g : F) (logical : Bool) ( realloc : Bool)
  | drain (now : T) (cas : ℕ → Option (Option H))
  | release
  | other (g : F) (n : ℤ)

variable [DecidableEq F]

def step (s : State F T H) : Call F T H → Option (State F T H)
  | .push d g logical r => some ((s.timerPush d g logical r).getD s)
  | .drain now cas => some (s.drainTimers now cas).2
  | .release => some s.releaseTimers
  | .other g n => some { s with refcount := update s.refcount g (s.refcount g + n) }

/-- A new scheduler.  Its fibers have the references `refs` already. -/
structure Init (refs : F → ℤ) (s : State F T H) : Prop where
  size : s.size = 0
  cap : s.cap = 0
  taken : s.taken = []
  dropped : s.dropped = []
  refcount : s.refcount = refs

def system (T H : Type*) [LinearOrder T] (refs : F → ℤ) : System (State F T H) (Call F T H) where
  init := Init refs
  step := step

end Runloom.TimerHeap

/-!
## Each timer owns a reference

Over any sequence of calls an entry of the heap owns one reference to its fiber: those taken are those dropped and
those of the entries.  A drain pops the entries that are due, the earliest first.
-/

namespace Runloom.TimerHeap

open Transition Heap List

variable {F T H : Type*} [DecidableEq F] [LinearOrder T]

/-- The entries popped, the `now` of the last drain, whether no time went back, and the references of others. -/
structure Log (F T : Type*) where
  popped : List (Entry F T)
  last : Option T
  orderly : Bool
  others : F → ℤ

/-- The last drain was not after `t`. -/
def Log.reached (h : Log F T) (t : T) : Bool := h.last.all fun now => decide (now ≤ t)

def note (h : Log F T) (s : State F T H) : Call F T H → State F T H → Log F T
  | .push d _ _ _, _ => { h with orderly := h.orderly && h.reached d }
  | .drain now cas, _ =>
    { h with
      popped := h.popped ++ (s.drainTimers now cas).1
      last := some now
      orderly := h.orderly && h.reached now }
  | .release, _ => h
  | .other g n, _ => { h with others := update h.others g (h.others g + n) }

def noted (T H : Type*) [LinearOrder T] (refs : F → ℤ) : System (State F T H × Log F T) (Call F T H) :=
  (system T H refs).withHistory ⟨[], none, true, refs⟩ note

variable {s t : State F T H} {h : Log F T} {e : Entry F T} {now : T} {cas : ℕ → Option (Option H)} {g : F}

omit [DecidableEq F] in
theorem earlier_iff (a b : Entry F T) : a.earlier b = true ↔ a.deadline < b.deadline := decide_eq_true_iff

/-- The heap is in order and has room for its entries. -/
structure HeapOk (s : State F T H) : Prop where
  ordered : Ordered oneBased Entry.deadline s.heap (s.size + 1)
  room : s.size ≤ s.cap

/-- Each entry owns one reference of its fiber. -/
structure Owns (s : State F T H) (others : F → ℤ) : Prop where
  balance : (s.taken : Multiset F) = s.dropped + s.entries.map Entry.g
  refcount (g : F) : s.refcount g = others g + (s.entries.map Entry.g).count g

/-! ### The pop -/

section

omit [DecidableEq F]

theorem HeapOk.pop (hs : HeapOk s) :
    match s.timerPop with
    | (none, t) => s.size = 0 ∧ t = s
    | (some e, t) =>
      e = s.heap 1 ∧ HeapOk t ∧ s.entries.Perm (e :: t.entries) ∧ t.refcount = s.refcount ∧ t.taken = s.taken ∧
        t.dropped = s.dropped := by
  have hord := hs.ordered
  have hroom := hs.room
  unfold State.timerPop
  cases hn : s.size with
  | zero => exact ⟨rfl, rfl⟩
  | succ n =>
    rw [hn] at hord hroom
    rw [if_neg (Nat.succ_ne_zero n)]
    simp only [Nat.add_sub_cancel]
    have hperm : ∀ b : ℕ → Entry F T,
        s.heap 1 ::ₘ Heap.entries oneBased b (n + 1) = Heap.entries oneBased s.heap (n + 2) →
        s.entries.Perm (s.heap 1 :: (List.range' 1 n).map b) := by
      intro b hb
      rw [State.entries, hn]
      exact (Multiset.coe_eq_coe.mp hb).symm
    by_cases hzero : n = 0
    · subst hzero
      obtain ⟨ho, he⟩ := OneBased.tail_spec hord
      rw [if_pos rfl]
      exact ⟨rfl, ⟨ho, Nat.zero_le _⟩, hperm _ he, rfl, rfl, rfl⟩
    · obtain ⟨ho, he⟩ := OneBased.pop_spec earlier_iff hord hzero
      rw [if_neg hzero]
      exact ⟨rfl, ⟨ho, Nat.le_of_succ_le hroom⟩, hperm _ he, rfl, rfl, rfl⟩

theorem HeapOk.root_le (hs : HeapOk s) (he : e ∈ s.entries) : (s.heap 1).deadline ≤ e.deadline := by
  obtain ⟨i, hi, rfl⟩ := mem_map.mp he
  obtain ⟨h1, hn⟩ := mem_range'_1.mp hi
  exact hs.ordered.root_le h1 (by omega)

end

omit [DecidableEq F] [LinearOrder T] in
theorem fire_fields (s : State F T H) (g : F) (a : Option (Option H)) :
    (s.fire g a).heap = s.heap ∧ (s.fire g a).size = s.size ∧ (s.fire g a).cap = s.cap ∧
      (s.fire g a).refcount = s.refcount ∧ (s.fire g a).taken = s.taken ∧ (s.fire g a).dropped = s.dropped := by
  unfold State.fire
  split <;> exact ⟨rfl, rfl, rfl, rfl, rfl, rfl⟩

/-! ### The references -/

variable {others : F → ℤ}

section

omit [LinearOrder T]

theorem Owns.drop (hO : Owns s others) (hperm : s.entries.Perm (e :: t.entries)) (href : t.refcount = s.refcount)
    (htaken : t.taken = s.taken) (hdropped : t.dropped = s.dropped) : Owns (t.decref e.g) others where
  balance := by
    have hb := hO.balance
    rw [Multiset.coe_eq_coe.mpr (hperm.map Entry.g)] at hb
    show (t.taken : Multiset F) = ((e.g :: t.dropped : List F) : Multiset F) + (t.entries.map Entry.g : List F)
    rw [htaken, hdropped, hb, map_cons, ← Multiset.cons_coe, ← Multiset.cons_coe, Multiset.add_cons,
      Multiset.cons_add]
  refcount x := by
    have hx := hO.refcount x
    rw [(hperm.map Entry.g).count_eq, map_cons, count_cons] at hx
    show update t.refcount e.g (t.refcount e.g - 1) x = _
    rw [href, show (t.decref e.g).entries = t.entries from rfl]
    by_cases hxe : x = e.g
    · subst hxe
      rw [update_self, hx]
      simp [← add_assoc]
    · rw [update_of_ne hxe, hx]
      simp [Ne.symm hxe]

theorem Owns.take (hO : Owns s others) (hperm : t.entries.Perm (e :: s.entries))
    (href : t.refcount = update s.refcount e.g (s.refcount e.g + 1)) (htaken : t.taken = e.g :: s.taken)
    (hdropped : t.dropped = s.dropped) : Owns t others where
  balance := by
    rw [Multiset.coe_eq_coe.mpr (hperm.map Entry.g), htaken, hdropped, map_cons, ← Multiset.cons_coe,
      ← Multiset.cons_coe, hO.balance, Multiset.add_cons]
  refcount x := by
    have hx := hO.refcount x
    rw [href, (hperm.map Entry.g).count_eq, map_cons, count_cons]
    by_cases hxe : x = e.g
    · subst hxe
      rw [update_self, hx]
      simp [add_assoc]
    · rw [update_of_ne hxe, hx]
      simp [Ne.symm hxe]

end

omit [DecidableEq F] in
theorem HeapOk.grow {r : Bool} (hs : HeapOk s) (hr : s.room r = some t) :
    ∃ cap, s.size + 1 ≤ cap ∧ t = { s with cap := cap } := by
  have hroom := hs.room
  unfold State.room State.timerGrow at hr
  split at hr
  next hfull =>
    split at hr <;> cases hr
    refine ⟨_, ?_, rfl⟩
    split <;> omega
  next hfull =>
    cases hr
    exact ⟨_, by omega, rfl⟩

theorem HeapOk.push {d : T} {logical r : Bool} (hs : HeapOk s) (hO : Owns s others)
    (hp : s.timerPush d g logical r = some t) :
    HeapOk t ∧ Owns t others ∧ t.entries.Perm (⟨d, g, logical⟩ :: s.entries) := by
  unfold State.timerPush at hp
  split at hp
  next => cases hp
  next u hu =>
    obtain ⟨cap, hcap, rfl⟩ := hs.grow hu
    obtain ⟨ho, he⟩ := OneBased.push_spec earlier_iff hs.ordered ⟨d, g, logical⟩
    cases hp
    have hperm : ((List.range' 1 (s.size + 1)).map
        (OneBased.holeUp Entry.earlier s.heap (s.size + 1) ⟨d, g, logical⟩)).Perm (⟨d, g, logical⟩ :: s.entries) :=
      Multiset.coe_eq_coe.mp he
    exact ⟨⟨ho, hcap⟩, hO.take (e := ⟨d, g, logical⟩) hperm rfl rfl rfl, hperm⟩

/-! ### The drain -/

theorem drain_spec (s : State F T H) (now : T) (cas : ℕ → Option (Option H)) (hs : HeapOk s) (hO : Owns s others) :
    HeapOk (s.drainTimers now cas).2 ∧ Owns (s.drainTimers now cas).2 others ∧
    s.entries.Perm ((s.drainTimers now cas).1 ++ (s.drainTimers now cas).2.entries) ∧
    (s.drainTimers now cas).1.Pairwise (fun a b => a.deadline ≤ b.deadline) ∧
    (∀ a ∈ (s.drainTimers now cas).1, a.deadline ≤ now) ∧
    ∀ a ∈ (s.drainTimers now cas).2.entries, now < a.deadline := by
  induction s, cas using @State.drainTimers.induct F T H _ _ now with
  | case1 s cas hpos hlt =>
    rw [State.drainTimers, if_pos hpos, if_pos hlt]
    exact ⟨hs, hO, .refl _, .nil, nofun, fun a ha => hlt.trans_le (hs.root_le ha)⟩
  | case2 s cas hpos hlt t hpop =>
    have hp := hs.pop
    rw [hpop] at hp
    omega
  | case3 s cas hpos hlt e t hpop popped u hrest ih =>
    have hp := hs.pop
    rw [hpop] at hp
    obtain ⟨rfl, ht, hperm, href, htaken, hdropped⟩ := hp
    obtain ⟨hheap, hsize, hcap, href', htaken', hdropped'⟩ := fire_fields t (s.heap 1).g (cas 0)
    have hent : (t.fire (s.heap 1).g (cas 0)).entries = t.entries := by
      rw [State.entries, State.entries, hheap, hsize]
    have hok : HeapOk ((t.fire (s.heap 1).g (cas 0)).decref (s.heap 1).g) := by
      refine ⟨?_, ?_⟩
      · show Ordered oneBased _ (t.fire _ _).heap ((t.fire _ _).size + 1)
        rw [hheap, hsize]
        exact ht.ordered
      · show (t.fire _ _).size ≤ (t.fire _ _).cap
        rw [hsize, hcap]
        exact ht.room
    have hown := hO.drop (hent ▸ hperm) (href'.trans href) (htaken'.trans htaken) (hdropped'.trans hdropped)
    obtain ⟨hok', hown', hperm', hsorted, hdue, hleft⟩ := ih hok hown
    have hrest' : ((t.fire (s.heap 1).g (cas 0)).decref (s.heap 1).g).entries = t.entries := hent
    rw [hrest'] at hperm'
    have hstep : s.drainTimers now cas =
        (s.heap 1 :: (((t.fire (s.heap 1).g (cas 0)).decref (s.heap 1).g).drainTimers now fun k => cas (k + 1)).1,
          (((t.fire (s.heap 1).g (cas 0)).decref (s.heap 1).g).drainTimers now fun k => cas (k + 1)).2) := by
      rw [State.drainTimers, if_pos hpos, if_neg hlt]
      split
      next h' =>
        rw [hpop] at h'
        cases h'
      next h' =>
        rw [hpop] at h'
        cases h'
        rfl
    rw [hstep]
    have hmin : ∀ a ∈ t.entries, (s.heap 1).deadline ≤ a.deadline :=
      fun a ha => hs.root_le (hperm.mem_iff.mpr (mem_cons_of_mem _ ha))
    refine ⟨hok', hown', hperm.trans (hperm'.cons _), ?_, ?_, hleft⟩
    · refine pairwise_cons.mpr ⟨fun a ha => hmin a ?_, hsorted⟩
      exact hperm'.mem_iff.mpr (mem_append_left _ ha)
    · intro a ha
      rcases mem_cons.mp ha with rfl | ha
      · exact not_lt.mp hlt
      · exact hdue a ha
  | case4 s cas hpos =>
    rw [State.drainTimers, if_neg hpos]
    have hsize : s.size = 0 := by omega
    refine ⟨hs, hO, .refl _, .nil, nofun, fun a ha => ?_⟩
    rw [State.entries, hsize] at ha
    cases ha

/-! ### The release -/

omit [LinearOrder T] in
theorem foldl_decref (l : List (Entry F T)) (s : State F T H) :
    ∃ refcount dropped, l.foldl (fun s e => s.decref e.g) s = { s with refcount := refcount, dropped := dropped } ∧
      (dropped : Multiset F) = s.dropped + l.map Entry.g ∧
      ∀ x, refcount x = s.refcount x - (l.map Entry.g).count x := by
  induction l generalizing s with
  | nil => exact ⟨s.refcount, s.dropped, rfl, by simp, fun x => by simp⟩
  | cons e l ih =>
    obtain ⟨refcount, dropped, heq, hdropped, href⟩ := ih (s.decref e.g)
    refine ⟨refcount, dropped, heq, ?_, fun x => ?_⟩
    · rw [hdropped, map_cons, ← Multiset.cons_coe, Multiset.add_cons]
      exact congrArg (· + _) (Multiset.cons_coe e.g s.dropped).symm |>.trans (Multiset.cons_add ..)
    · rw [href, map_cons, count_cons]
      show update s.refcount e.g (s.refcount e.g - 1) x - _ = _
      by_cases hx : x = e.g
      · subst hx
        rw [update_self]
        simp
        omega
      · rw [update_of_ne hx]
        simp [Ne.symm hx]

theorem release_spec (hs : HeapOk s) (hO : Owns s others) :
    HeapOk s.releaseTimers ∧ Owns s.releaseTimers others ∧ s.releaseTimers.size = 0 := by
  have hroom := hs.room
  unfold State.releaseTimers
  split
  next hcap => exact ⟨hs, hO, by omega⟩
  next =>
    obtain ⟨refcount, dropped, heq, hdropped, href⟩ := foldl_decref s.entries s
    rw [heq]
    refine ⟨⟨?_, Nat.zero_le _⟩, ⟨?_, fun x => ?_⟩, rfl⟩
    · exact hs.ordered.shrink (Nat.succ_le_succ (Nat.zero_le _))
    · show (s.taken : Multiset F) = (dropped : Multiset F) + (([] : List F) : Multiset F)
      rw [hdropped, hO.balance, Multiset.coe_nil, add_zero]
    · show refcount x = others x + (([] : List F).count x : ℤ)
      rw [href, hO.refcount, count_nil]
      omega

/-! ### Whole runs -/

/-- The pops are in order, as long as no time went back. -/
structure InOrder (s : State F T H) (h : Log F T) : Prop where
  sorted : h.popped.Pairwise fun a b => a.deadline ≤ b.deadline
  popped {a : Entry F T} (ha : a ∈ h.popped) : ∃ now ∈ h.last, a.deadline ≤ now
  left {a : Entry F T} (ha : a ∈ s.entries) : h.reached a.deadline = true

structure Inv (s : State F T H) (h : Log F T) : Prop where
  heap : HeapOk s
  owns : Owns s h.others
  inOrder (ho : h.orderly = true) : InOrder s h

theorem Inv.of_init {refs : F → ℤ} (hi : Init refs s) : Inv s ⟨[], none, true, refs⟩ := by
  have hnil : s.entries = [] := by
    rw [State.entries, hi.size]
    rfl
  refine ⟨⟨fun i hr hn => ?_, ?_⟩, ⟨?_, fun x => ?_⟩, fun _ => ⟨.nil, nofun, fun ha => rfl⟩⟩
  · have hr : 1 < i := hr
    have := hi.size
    omega
  · rw [hi.size]
    exact Nat.zero_le _
  · rw [hnil, hi.taken, hi.dropped]
    rfl
  · rw [hnil, hi.refcount]
    simp

section

variable (hI : Inv s h)
include hI

theorem Inv.push {d : T} {logical r : Bool} :
    Inv ((s.timerPush d g logical r).getD s) { h with orderly := h.orderly && h.reached d } := by
  cases hp : s.timerPush d g logical r with
  | none =>
    refine ⟨hI.heap, hI.owns, fun ho => ?_⟩
    obtain ⟨hsorted, hpopped, hleft⟩ := hI.inOrder (Bool.and_eq_true_iff.mp ho).1
    exact ⟨hsorted, hpopped, hleft⟩
  | some t =>
    obtain ⟨hok, hown, hperm⟩ := hI.heap.push hI.owns hp
    refine ⟨hok, hown, fun ho => ?_⟩
    obtain ⟨ho, hd⟩ := Bool.and_eq_true_iff.mp ho
    obtain ⟨hsorted, hpopped, hleft⟩ := hI.inOrder ho
    refine ⟨hsorted, hpopped, fun {a} ha => ?_⟩
    rcases mem_cons.mp (hperm.mem_iff.mp ha) with rfl | ha
    · exact hd
    · exact hleft ha

theorem Inv.drain : Inv (s.drainTimers now cas).2 { h with
      popped := h.popped ++ (s.drainTimers now cas).1
      last := some now
      orderly := h.orderly && h.reached now } := by
  obtain ⟨hok, hown, hperm, hsorted, hdue, hleft⟩ := drain_spec s now cas hI.heap hI.owns
  refine ⟨hok, hown, fun ho => ?_⟩
  obtain ⟨ho, hnow⟩ := Bool.and_eq_true_iff.mp ho
  obtain ⟨hsorted', hpopped, hbefore⟩ := hI.inOrder ho
  refine ⟨pairwise_append.mpr ⟨hsorted', hsorted, fun a ha b hb => ?_⟩, fun {a} ha => ⟨now, rfl, ?_⟩,
    fun {a} ha => decide_eq_true (hleft a ha).le⟩
  · obtain ⟨last, hlast, hle⟩ := hpopped ha
    have hb' := hbefore (hperm.mem_iff.mpr (mem_append_left _ hb))
    rw [Log.reached, hlast] at hb'
    exact hle.trans (of_decide_eq_true hb')
  · rcases mem_append.mp ha with ha | ha
    · obtain ⟨last, hlast, hle⟩ := hpopped ha
      rw [Log.reached, hlast] at hnow
      exact hle.trans (of_decide_eq_true hnow)
    · exact hdue a ha

theorem Inv.release : Inv s.releaseTimers h := by
  obtain ⟨hok, hown, hsize⟩ := release_spec hI.heap hI.owns
  refine ⟨hok, hown, fun ho => ?_⟩
  obtain ⟨hsorted, hpopped, -⟩ := hI.inOrder ho
  refine ⟨hsorted, hpopped, fun {a} ha => ?_⟩
  rw [State.entries, hsize] at ha
  cases ha

theorem Inv.other {n : ℤ} : Inv { s with refcount := update s.refcount g (s.refcount g + n) }
      { h with others := update h.others g (h.others g + n) } := by
  refine ⟨⟨hI.heap.ordered, hI.heap.room⟩, ⟨hI.owns.balance, fun x => ?_⟩, fun ho => ?_⟩
  · have hx := hI.owns.refcount x
    show update s.refcount g (s.refcount g + n) x =
      update h.others g (h.others g + n) x + ((s.entries.map Entry.g).count x : ℤ)
    by_cases hxg : x = g
    · subst hxg
      rw [update_self, update_self, hx]
      omega
    · rw [update_of_ne hxg, update_of_ne hxg, hx]
  · obtain ⟨hsorted, hpopped, hleft⟩ := hI.inOrder ho
    exact ⟨hsorted, hpopped, hleft⟩

theorem Inv.step {c : Call F T H} {refs : F → ℤ} (hs : (system T H refs).step s c = some t) :
    Inv t (note h s c t) := by
  cases c with
  | push d g logical r =>
    cases hs
    exact hI.push
  | drain now cas =>
    cases hs
    exact hI.drain
  | release =>
    cases hs
    exact hI.release
  | other g n =>
    cases hs
    exact hI.other

end

theorem inv_of_reachable {refs : F → ℤ} {x : State F T H × Log F T} (hx : (noted T H refs).Reachable x) :
    Inv x.1 x.2 := by
  refine hx.invariant (P := fun x => Inv x.1 x.2) (fun x hi => ?_) ?_
  · rw [hi.2]
    exact .of_init hi.1
  · rintro x c y hI - hstep
    obtain ⟨hs, hnote⟩ := System.withHistory_step hstep
    rw [hnote]
    exact hI.step hs

/-- The references and the order of the pops, after what `h` records. -/
structure Balanced (s : State F T H) (h : Log F T) : Prop where
  owns : (s.taken : Multiset F) = s.dropped + s.entries.map Entry.g
  count : s.taken.length = s.dropped.length + s.size
  refcount (g : F) : s.refcount g = h.others g + (s.entries.map Entry.g).count g
  drained (now : T) (cas : ℕ → Option (Option H)) :
    (s.drainTimers now cas).1.Perm (s.entries.filter fun e => e.deadline ≤ now) ∧
    (s.drainTimers now cas).2.entries.Perm (s.entries.filter fun e => now < e.deadline) ∧
    (s.drainTimers now cas).1.Pairwise fun a b => a.deadline ≤ b.deadline
  released : s.releaseTimers.size = 0 ∧ (s.releaseTimers.taken : Multiset F) = s.releaseTimers.dropped ∧
    s.releaseTimers.refcount = h.others
  ordered (ho : h.orderly = true) : h.popped.Pairwise fun a b => a.deadline ≤ b.deadline

omit [DecidableEq F] in
theorem perm_filter {l p q : List (Entry F T)} (hperm : l.Perm (p ++ q)) (hp : ∀ a ∈ p, a.deadline ≤ now)
    (hq : ∀ a ∈ q, now < a.deadline) :
    p.Perm (l.filter fun e => e.deadline ≤ now) ∧ q.Perm (l.filter fun e => now < e.deadline) := by
  constructor
  · have hnone : q.filter (fun e => decide (e.deadline ≤ now)) = [] :=
      filter_eq_nil_iff.mpr fun a ha => by simpa using hq a ha
    have hall : p.filter (fun e => decide (e.deadline ≤ now)) = p :=
      filter_eq_self.mpr fun a ha => decide_eq_true (hp a ha)
    have h := hperm.filter fun e => decide (e.deadline ≤ now)
    rw [filter_append, hall, hnone, append_nil] at h
    exact h.symm
  · have hnone : p.filter (fun e => decide (now < e.deadline)) = [] :=
      filter_eq_nil_iff.mpr fun a ha => by simpa using hp a ha
    have hall : q.filter (fun e => decide (now < e.deadline)) = q :=
      filter_eq_self.mpr fun a ha => decide_eq_true (hq a ha)
    have h := hperm.filter fun e => decide (now < e.deadline)
    rw [filter_append, hall, hnone, nil_append] at h
    exact h.symm

theorem Inv.balanced (hI : Inv s h) : Balanced s h where
  owns := hI.owns.balance
  count := by
    have hcard := congrArg Multiset.card hI.owns.balance
    simpa [State.entries] using hcard
  refcount := hI.owns.refcount
  drained now cas := by
    obtain ⟨-, -, hperm, hsorted, hdue, hleft⟩ := drain_spec s now cas hI.heap hI.owns
    obtain ⟨hp, hq⟩ := perm_filter hperm hdue hleft
    exact ⟨hp, hq, hsorted⟩
  released := by
    obtain ⟨-, hown, hsize⟩ := release_spec hI.heap hI.owns
    have hnil : s.releaseTimers.entries = [] := by
      rw [State.entries, hsize]
      rfl
    refine ⟨hsize, ?_, ?_⟩
    · have hb := hown.balance
      rwa [hnil, map_nil, Multiset.coe_nil, add_zero] at hb
    · funext g
      rw [hown.refcount, hnil]
      simp
  ordered ho := (hI.inOrder ho).sorted

/-- Each entry owns one reference, a drain pops what is due in the order of the deadlines, and a release leaves
none. -/
theorem timer_references_balance (refs : F → ℤ) (x : State F T H × Log F T) (hx : (noted T H refs).Reachable x) :
    Balanced x.1 x.2 :=
  (inv_of_reachable hx).balanced

def noTimers : State ℕ ℕ ℕ := ⟨fun _ => ⟨0, 0, false⟩, 0, 0, fun _ => 1, [], [], [], []⟩

theorem noTimers_init : Init (fun _ => 1) noTimers := ⟨rfl, rfl, rfl, rfl, rfl⟩

/-- Two timers of fiber 1 and one of fiber 2; a drain at 10. -/
def twoFibers : List (Call ℕ ℕ ℕ) :=
  [.push 20 1 false true, .push 9 2 false true, .push 5 1 false true,
    .drain 10 fun k => if k = 0 then some none else none]

theorem timer_references_balance_twoFibers :
    ∃ x, (noted ℕ ℕ fun _ : ℕ => 1).Reachable x ∧ x.2.popped.map Entry.deadline = [5, 9] ∧ x.1.refcount 1 = 2 ∧
      x.1.ready = [1] ∧ Balanced x.1 x.2 := by
  obtain ⟨x, hx, hpopped, href, hready⟩ := (noted ℕ ℕ fun _ : ℕ => 1).reaches
    (fun x => x.2.popped.map Entry.deadline = [5, 9] ∧ x.1.refcount 1 = 2 ∧ x.1.ready = [1])
    twoFibers (s := (noTimers, ⟨[], none, true, fun _ => 1⟩)) ⟨noTimers_init, rfl⟩ (by decide +kernel)
  exact ⟨x, hx, hpopped, href, hready, timer_references_balance _ x hx⟩

def lateTimer : List (Call ℕ ℕ ℕ) :=
  [.push 9 1 false true, .drain 10 fun _ => none, .push 5 2 false true, .drain 10 fun _ => none]

/-- Over several drains the pops need not be in order, although `now` does not go back. -/
theorem late_timer_popped_after :
    ∃ x, (noted ℕ ℕ fun _ : ℕ => 1).run (noTimers, ⟨[], none, true, fun _ => 1⟩) lateTimer = some x ∧
      ¬x.2.popped.Pairwise fun a b => a.deadline ≤ b.deadline := by
  obtain ⟨x, hr, -, hp⟩ := System.exists_reachable_of_run (M := noted ℕ ℕ fun _ : ℕ => 1)
    (p := fun x => decide (¬x.2.popped.Pairwise fun a b : Entry ℕ ℕ => a.deadline ≤ b.deadline))
    lateTimer (s := (noTimers, ⟨[], none, true, fun _ => 1⟩)) ⟨noTimers_init, rfl⟩ (by decide +kernel)
  exact ⟨x, hr, of_decide_eq_true hp⟩

end Runloom.TimerHeap
