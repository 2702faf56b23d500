import Mathlib.Data.List.Induction
import Mathlib.Data.List.Nodup
import Mathlib.Data.List.Perm.Basic
import Runloom.TimedSocket

/-!
# The cooperative select

Model of `_select_map_back` and `_co_select_via_epoll`: the input lists are turned into dictionaries by descriptor and
a mask for each descriptor, the descriptors are registered on a transient epoll, and the loop drains that epoll, parks
on its own descriptor and drains again until a drain reports something or the timeout is over.

Times are in nanoseconds.
-/

namespace Runloom.CoSelect

/-- An object with a `fileno`, or an integer. Objects with the same `id` are the same. -/
inductive Watched where
  | object (id : ℕ) (fileno : ℤ)
  | int (n : ℤ)
deriving DecidableEq

/-- `_fd_of`. -/
def fdOf : Watched → ℤ
  | .object _ fileno => fileno
  | .int n => n

abbrev Mask := BitVec 32

def epollin : Mask := 0x1
def epollpri : Mask := 0x2
def epollout : Mask := 0x4
def epollerr : Mask := 0x8
def epollhup : Mask := 0x10

def rmask : Mask := epollin ||| epollerr ||| epollhup
def wmask : Mask := epollout ||| epollerr ||| epollhup
def xmask : Mask := epollpri ||| epollerr

abbrev Dict (β : Type) := List (ℤ × β)

/-- `d[fd] = v`: a key that is there keeps its place. -/
def Dict.set {β : Type} (fd : ℤ) (v : β) : Dict β → Dict β
  | [] => [(fd, v)]
  | (k, u) :: d => if k = fd then (k, v) :: d else (k, u) :: Dict.set fd v d

/-- `rfds`, `wfds` or `xfds` after the loop over its list. -/
def fds (list : List Watched) : Dict Watched := list.foldl (fun d o => d.set (fdOf o) o) []

/-- The part of one list in `masks`. -/
def addMasks (bit : Mask) (masks : Dict Mask) (list : List Watched) : Dict Mask :=
  list.foldl (fun m o => m.set (fdOf o) ((m.lookup (fdOf o)).getD 0 ||| bit)) masks

/-- `masks`. -/
def masks (rlist wlist xlist : List Watched) : Dict Mask :=
  addMasks epollpri (addMasks epollout (addMasks epollin [] rlist) wlist) xlist

abbrev Ready := List (ℤ × Mask)

/-- The three lists that a select returns. -/
structure Lists where
  r : List Watched
  w : List Watched
  x : List Watched
deriving DecidableEq

/-- One of the three tests of the loop of `_select_map_back`, over all that is ready. -/
def pick (mask : Mask) (d : Dict Watched) (ready : Ready) : List Watched :=
  ready.filterMap fun p => if p.2 &&& mask ≠ 0 then d.lookup p.1 else none

/-- `_select_map_back`. -/
def selectMapBack (ready : Ready) (rfds wfds xfds : Dict Watched) : Lists :=
  ⟨pick rmask rfds ready, pick wmask wfds ready, pick xmask xfds ready⟩

/-- How `wait_fd` ends. -/
inductive Wake where
  | woken
  /-- It returns `_WAIT_FD_CANCELLED`. -/
  | cancelled
  /-- It raises an `OSError`. -/
  | error

/-- What a round meets: the time and the report of the drain, the time of the clock read, and how the park ends. -/
structure Round where
  polling : ℕ
  ready : Ready
  reading : ℕ
  park : ℤ → ℕ × Wake

inductive Outcome where
  | lists (l : Lists)
  /-- `_SelectFallback`. -/
  | fallback
  /-- `OSError(ECANCELED)`. -/
  | cancelled
deriving DecidableEq

/-- The end of a call, with all that its drains have reported. -/
structure Return where
  outcome : Outcome
  now : ℤ
  reported : Ready
deriving DecidableEq

def nothing : Lists := ⟨[], [], []⟩

/-- `wait_fd` on the epoll: the end of the call, or the start of the next round. -/
def Round.wait (round : Round) (now waitMs : ℤ) (seen : Ready) : Except Return ℤ :=
  let woken := now + (round.park waitMs).1
  match (round.park waitMs).2 with
  | .error => .error ⟨.fallback, woken, seen⟩
  | .cancelled => .error ⟨.cancelled, woken, seen⟩
  | .woken => .ok woken

/-- One round of the `while` loop, from the time `now`; `seen` is what the drains have reported. -/
def Round.run (round : Round) (rfds wfds xfds : Dict Watched) (timeout : Option ℤ) (start now : ℤ) (seen : Ready) :
    Except Return ℤ :=
  let polled := now + round.polling
  let read := polled + round.reading
  if round.ready ≠ [] then .error ⟨.lists (selectMapBack round.ready rfds wfds xfds), polled, seen⟩
  else match timeout with
    | none => round.wait read (-1) seen
    | some t =>
      if t ≤ 0 then .error ⟨.lists nothing, polled, seen⟩
      else
        let rem := start + t - read
        if rem ≤ 0 then .error ⟨.lists nothing, read, seen⟩
        else round.wait read (TimedSocket.timeoutMs rem) seen

/-- The `while` loop; `none` when the rounds are used up. -/
def loop (rfds wfds xfds : Dict Watched) (timeout : Option ℤ) (start now : ℤ) (seen : Ready) :
    List Round → Option Return
  | [] => none
  | round :: rounds =>
    match round.run rfds wfds xfds timeout start now (seen ++ round.ready) with
    | .error ret => some ret
    | .ok woken => loop rfds wfds xfds timeout start woken (seen ++ round.ready) rounds

/-- `_co_select_via_epoll`; `registers` says which registrations the kernel accepts. -/
def coSelectViaEpoll (registers : ℤ → Mask → Bool) (rlist wlist xlist : List Watched) (timeout : Option ℤ)
    (start : ℤ) (rounds : List Round) : Option Return :=
  if ∀ p ∈ masks rlist wlist xlist, registers p.1 p.2 = true then
    loop (fds rlist) (fds wlist) (fds xlist) timeout start start [] rounds
  else some ⟨.fallback, start, []⟩

end Runloom.CoSelect

/-!
## What a cooperative select returns

A list that a select returns is to hold the members of the input list whose descriptor is reported ready, in the order
of the input list and with repeats kept.  A descriptor that is watched for exceptional conditions only and is hung up
belongs to no result, so that the lists may be empty before the timeout is over.
-/

namespace Runloom.CoSelect

open List

variable {list rlist wlist xlist : List Watched} {timeout : Option ℤ} {start : ℤ} {rounds : List Round}
  {ready : Ready} {mask : Mask}

/-! ## Dictionaries -/

theorem Dict.lookup_cons {β : Type} (j k : ℤ) (u : β) (d : Dict β) :
    List.lookup k ((j, u) :: d) = if k = j then some u else List.lookup k d := by
  by_cases h : k = j
  · simp [h]
  · rw [List.lookup_cons, beq_false_of_ne h, if_neg h]

theorem Dict.lookup_set {β : Type} (fd k : ℤ) (v : β) (d : Dict β) :
    (d.set fd v).lookup k = if k = fd then some v else d.lookup k := by
  induction d with
  | nil => exact Dict.lookup_cons fd k v []
  | cons p d ih =>
    obtain ⟨j, u⟩ := p
    by_cases hj : j = fd
    · subst hj
      rw [Dict.set, if_pos rfl, Dict.lookup_cons, Dict.lookup_cons]
      by_cases h : k = j
      · rw [if_pos h, if_pos h]
      · rw [if_neg h, if_neg h, if_neg h]
    · rw [Dict.set, if_neg hj, Dict.lookup_cons, Dict.lookup_cons, ih]
      by_cases h : k = j
      · rw [if_pos h, if_pos h, if_neg (h ▸ hj)]
      · rw [if_neg h, if_neg h]

@[simp] theorem fds_append (o : Watched) : fds (list ++ [o]) = (fds list).set (fdOf o) o := by
  simp [fds]

variable {o : Watched}

theorem mem_of_lookup_fds {fd : ℤ} (h : (fds list).lookup fd = some o) : o ∈ list ∧ fdOf o = fd := by
  induction list using List.reverseRecOn with
  | nil => cases h
  | append_singleton list p ih =>
    rw [fds_append, Dict.lookup_set] at h
    split at h
    next heq => cases h; simp [heq]
    next => exact ⟨mem_append_left _ (ih h).1, (ih h).2⟩

theorem lookup_fds_isSome (h : o ∈ list) : ((fds list).lookup (fdOf o)).isSome := by
  induction list using List.reverseRecOn with
  | nil => cases h
  | append_singleton list p ih =>
    rw [fds_append, Dict.lookup_set]
    split
    next => rfl
    next hne =>
      rcases mem_append.mp h with h | h
      · exact ih h
      · exact absurd (congrArg fdOf (mem_singleton.mp h)) hne

theorem lookup_fds_of_alone (h : o ∈ list) (halone : ∀ p ∈ list, fdOf p = fdOf o → p = o) :
    (fds list).lookup (fdOf o) = some o := by
  obtain ⟨p, hp⟩ := Option.isSome_iff_exists.mp (lookup_fds_isSome h)
  obtain ⟨hm, hfd⟩ := mem_of_lookup_fds hp
  rw [hp, halone p hm hfd]

/-! ## One result list -/

def readyFor (mask : Mask) (ready : Ready) (o : Watched) : Bool :=
  ready.any fun p => p.1 = fdOf o ∧ p.2 &&& mask ≠ 0

theorem readyFor_iff : readyFor mask ready o = true ↔ ∃ p ∈ ready, p.1 = fdOf o ∧ p.2 &&& mask ≠ 0 := by
  simp [readyFor]

/-- The ready members have descriptors of their own, reported in the order of the list. -/
def InOrder (mask : Mask) (list : List Watched) (ready : Ready) : Prop :=
  ((list.filter (readyFor mask ready)).map fdOf).Sublist (ready.map Prod.fst)

instance : Decidable (InOrder mask list ready) :=
  inferInstanceAs (Decidable (List.Sublist _ _))

/-- The descriptors that are reported for the list, in the order of the report. -/
def hits (mask : Mask) (list : List Watched) (ready : Ready) : List ℤ :=
  (ready.filter fun p => p.2 &&& mask ≠ 0 ∧ p.1 ∈ list.map fdOf).map Prod.fst

theorem hits_sublist : (hits mask list ready).Sublist (ready.map Prod.fst) :=
  filter_sublist.map Prod.fst

theorem mem_hits {fd : ℤ} : fd ∈ hits mask list ready ↔ fd ∈ (list.filter (readyFor mask ready)).map fdOf := by
  simp only [hits, mem_map, mem_filter, decide_eq_true_eq, readyFor_iff]
  constructor
  · rintro ⟨p, ⟨hp, hm, o, ho, hfd⟩, rfl⟩
    exact ⟨o, ⟨ho, p, hp, hfd.symm, hm⟩, hfd⟩
  · rintro ⟨o, ⟨ho, p, hp, hfd, hm⟩, rfl⟩
    exact ⟨p, ⟨hp, hm, o, ho, hfd.symm⟩, hfd⟩

theorem lookup_fds_eq_none {fd : ℤ} (h : fd ∉ list.map fdOf) : (fds list).lookup fd = none := by
  by_contra hne
  obtain ⟨o, ho⟩ := Option.ne_none_iff_exists'.mp hne
  obtain ⟨hm, rfl⟩ := mem_of_lookup_fds ho
  exact h (mem_map_of_mem hm)

theorem pick_eq : pick mask (fds list) ready = (hits mask list ready).filterMap fun fd => (fds list).lookup fd := by
  unfold pick hits
  rw [filterMap_map, filterMap_filter]
  refine filterMap_congr fun p _ => ?_
  by_cases hm : p.2 &&& mask ≠ 0
  · by_cases hl : p.1 ∈ list.map fdOf
    · rw [if_pos hm, if_pos (decide_eq_true ⟨hm, hl⟩)]
      rfl
    · rw [if_pos hm, lookup_fds_eq_none hl, if_neg (by simp [hl])]
  · rw [if_neg hm, if_neg fun h => hm (of_decide_eq_true h).1]

theorem map_fdOf_pick : (pick mask (fds list) ready).map fdOf = hits mask list ready := by
  rw [pick_eq]
  have hmem : ∀ fd ∈ hits mask list ready, fd ∈ list.map fdOf := by
    intro fd h
    obtain ⟨o, ho, rfl⟩ := mem_map.mp (mem_hits.mp h)
    exact mem_map_of_mem (mem_of_mem_filter ho)
  generalize hits mask list ready = l at hmem
  induction l with
  | nil => rfl
  | cons fd l ih =>
    obtain ⟨o, ho, rfl⟩ := mem_map.mp (hmem fd mem_cons_self)
    obtain ⟨p, hp⟩ := Option.isSome_iff_exists.mp (lookup_fds_isSome ho)
    rw [filterMap_cons_some (f := fun fd => (fds list).lookup fd) hp, map_cons, (mem_of_lookup_fds hp).2,
      ih fun fd h => hmem fd (mem_cons_of_mem _ h)]

theorem pick_eq_filter_iff (honce : (ready.map Prod.fst).Nodup) :
    pick mask (fds list) ready = list.filter (readyFor mask ready) ↔ InOrder mask list ready := by
  constructor
  · intro h
    unfold InOrder
    rw [← h, map_fdOf_pick]
    exact hits_sublist
  · intro h
    -- the two sequences of descriptors are the same, as both are parts of the report with the same members
    have hnodup : ((list.filter (readyFor mask ready)).map fdOf).Nodup := honce.sublist h
    have hperm : (hits mask list ready).Perm ((list.filter (readyFor mask ready)).map fdOf) :=
      (perm_ext_iff_of_nodup (honce.sublist hits_sublist) hnodup).mpr fun _ => mem_hits
    have heq := (honce.perm_iff_eq_of_sublist hits_sublist h).mp hperm
    rw [pick_eq, heq, filterMap_map]
    -- and the dictionary has no other object for any of them
    have hself : ∀ o ∈ list.filter (readyFor mask ready), ((fun fd => (fds list).lookup fd) ∘ fdOf) o = some o := by
      intro o ho
      refine lookup_fds_of_alone (mem_of_mem_filter ho) fun p hp hfd => ?_
      have hp' : p ∈ list.filter (readyFor mask ready) := by
        refine mem_filter.mpr ⟨hp, ?_⟩
        rw [readyFor, hfd]
        exact (mem_filter.mp ho).2
      exact inj_on_of_nodup_map hnodup hp' ho hfd
    rw [filterMap_congr hself]
    exact filterMap_some

/-! ## The call -/

def Elapsed (timeout : Option ℤ) (start now : ℤ) : Prop := ∃ t, timeout = some t ∧ start + t ≤ now

/-- What a select promises of the lists it returns. -/
structure Promised (rlist wlist xlist : List Watched) (timeout : Option ℤ) (start now : ℤ) (reported : Ready)
    (l : Lists) : Prop where
  r : l.r = rlist.filter (readyFor rmask reported)
  w : l.w = wlist.filter (readyFor wmask reported)
  x : l.x = xlist.filter (readyFor xmask reported)
  elapsed : l = nothing → Elapsed timeout start now

/-- What `epoll_wait` documents: a registered descriptor once, with an event asked for, an error or a hang up. -/
structure Reports (masks : Dict Mask) (ready : Ready) : Prop where
  once : (ready.map Prod.fst).Nodup
  asked (p : ℤ × Mask) (hp : p ∈ ready) :
    p.2 ≠ 0 ∧ ∃ m, masks.lookup p.1 = some m ∧ p.2 &&& (m ||| epollerr ||| epollhup) = p.2

/-- A hang up, and nothing else, of a descriptor watched for exceptional conditions only. -/
def BareHangup (rlist wlist : List Watched) (p : ℤ × Mask) : Prop :=
  p.1 ∉ rlist.map fdOf ∧ p.1 ∉ wlist.map fdOf ∧ p.2 = epollhup

/-- When the lists are the promised ones. -/
structure Plain (rlist wlist xlist : List Watched) (timeout : Option ℤ) (start now : ℤ) (reported : Ready) : Prop where
  r : InOrder rmask rlist reported
  w : InOrder wmask wlist reported
  x : InOrder xmask xlist reported
  answered : reported ≠ [] → (∀ p ∈ reported, BareHangup rlist wlist p) → Elapsed timeout start now

/-! ## Masks -/

theorem lookup_addMasks (bit : Mask) (m : Dict Mask) (list : List Watched) (fd : ℤ) :
    (addMasks bit m list).lookup fd =
      if fd ∈ list.map fdOf then some ((m.lookup fd).getD 0 ||| bit) else m.lookup fd := by
  induction list using List.reverseRecOn with
  | nil => simp [addMasks]
  | append_singleton list o ih =>
    have hstep : addMasks bit m (list ++ [o]) = (addMasks bit m list).set (fdOf o)
        (((addMasks bit m list).lookup (fdOf o)).getD 0 ||| bit) := by
      simp [addMasks]
    rw [hstep, Dict.lookup_set]
    by_cases h : fd = fdOf o
    · subst h
      have hin : fdOf o ∈ (list ++ [o]).map fdOf := by simp
      rw [ih, if_pos rfl, if_pos hin]
      -- a descriptor that the list has already has the bit already
      by_cases hm : fdOf o ∈ list.map fdOf
      · rw [if_pos hm, Option.getD_some, BitVec.or_assoc, BitVec.or_self]
      · rw [if_neg hm]
    · rw [if_neg h, ih]
      simp only [map_append, mem_append, map_singleton, mem_singleton, h, or_false]

def bitOf (bit : Mask) (list : List Watched) (fd : ℤ) : Mask := if fd ∈ list.map fdOf then bit else 0

theorem getD_addMasks (bit : Mask) (m : Dict Mask) (list : List Watched) (fd : ℤ) :
    ((addMasks bit m list).lookup fd).getD 0 = (m.lookup fd).getD 0 ||| bitOf bit list fd := by
  rw [lookup_addMasks]
  unfold bitOf
  split
  · rfl
  · exact (BitVec.or_zero).symm

theorem lookup_masks {fd : ℤ} {m : Mask} (h : (masks rlist wlist xlist).lookup fd = some m) :
    m = bitOf epollin rlist fd ||| bitOf epollout wlist fd ||| bitOf epollpri xlist fd ∧
      (fd ∈ rlist.map fdOf ∨ fd ∈ wlist.map fdOf ∨ fd ∈ xlist.map fdOf) := by
  constructor
  · have hget : ((masks rlist wlist xlist).lookup fd).getD 0 =
        0 ||| bitOf epollin rlist fd ||| bitOf epollout wlist fd ||| bitOf epollpri xlist fd := by
      rw [masks, getD_addMasks, getD_addMasks, getD_addMasks]
      rfl
    rw [h, Option.getD_some] at hget
    rw [hget]
    simp
  · by_contra hno
    rw [not_or, not_or] at hno
    rw [masks, lookup_addMasks, if_neg hno.2.2, lookup_addMasks, if_neg hno.2.1, lookup_addMasks,
      if_neg hno.1] at h
    cases h

def askedOf (r w x : Bool) : Mask :=
  ((if r then epollin else 0) ||| (if w then epollout else 0) ||| (if x then epollpri else 0)) ||| epollerr ||| epollhup

theorem toNat_askedOf_lt (r w x : Bool) : (askedOf r w x).toNat < 32 := by
  decide +revert

theorem hangup_of_unanswered (r w x : Bool) (ev : Mask) (hne : ev ≠ 0) (hasked : ev &&& askedOf r w x = ev)
    (hsome : r || w || x) (hr : r → ev &&& rmask = 0) (hw : w → ev &&& wmask = 0) (hx : x → ev &&& xmask = 0) :
    r = false ∧ w = false ∧ ev = epollhup := by
  have hlt : ev.toNat < 32 := by
    rw [← hasked, BitVec.toNat_and]
    exact lt_of_le_of_lt Nat.and_le_right (toNat_askedOf_lt r w x)
  obtain ⟨n, rfl⟩ : ∃ n : Fin 32, ev = BitVec.ofNat 32 n := ⟨⟨ev.toNat, hlt⟩, by simp⟩
  clear hlt
  revert r w x n
  decide +kernel

/-- No list takes a report exactly when it is the bare hang up of a descriptor of `xlist`. -/
theorem bareHangup_iff (hready : Reports (masks rlist wlist xlist) ready) {p : ℤ × Mask} (hp : p ∈ ready) :
    BareHangup rlist wlist p ↔ (p.1 ∈ rlist.map fdOf → p.2 &&& rmask = 0) ∧
      (p.1 ∈ wlist.map fdOf → p.2 &&& wmask = 0) ∧ (p.1 ∈ xlist.map fdOf → p.2 &&& xmask = 0) := by
  constructor
  · rintro ⟨hr, hw, hev⟩
    refine ⟨fun h => absurd h hr, fun h => absurd h hw, fun _ => ?_⟩
    rw [hev]
    decide
  · rintro ⟨hr, hw, hx⟩
    obtain ⟨hne, m, hm, hasked⟩ := hready.asked p hp
    obtain ⟨rfl, hsome⟩ := lookup_masks hm
    obtain ⟨hr', hw', hev⟩ := hangup_of_unanswered (decide (p.1 ∈ rlist.map fdOf)) (decide (p.1 ∈ wlist.map fdOf))
      (decide (p.1 ∈ xlist.map fdOf)) p.2 hne (by simpa only [askedOf, bitOf, decide_eq_true_eq] using hasked)
      (by simpa only [Bool.or_eq_true, decide_eq_true_eq, or_assoc] using hsome) (fun h => hr (of_decide_eq_true h))
      (fun h => hw (of_decide_eq_true h)) (fun h => hx (of_decide_eq_true h))
    exact ⟨of_decide_eq_false hr', of_decide_eq_false hw', hev⟩

theorem pick_eq_nil_iff :
    pick mask (fds list) ready = [] ↔ ∀ p ∈ ready, p.1 ∈ list.map fdOf → p.2 &&& mask = 0 := by
  rw [← map_eq_nil_iff (f := fdOf), map_fdOf_pick, hits, map_eq_nil_iff, filter_eq_nil_iff]
  refine forall₂_congr fun p _ => ?_
  rw [decide_eq_true_eq, not_and', not_not]

theorem selectMapBack_eq_nothing_iff (hready : Reports (masks rlist wlist xlist) ready) :
    selectMapBack ready (fds rlist) (fds wlist) (fds xlist) = nothing ↔
      ∀ p ∈ ready, BareHangup rlist wlist p := by
  simp only [selectMapBack, nothing, Lists.mk.injEq, pick_eq_nil_iff]
  constructor
  · rintro ⟨hr, hw, hx⟩ p hp
    exact (bareHangup_iff hready hp).mpr ⟨hr p hp, hw p hp, hx p hp⟩
  · intro h
    exact ⟨fun p hp => ((bareHangup_iff hready hp).mp (h p hp)).1,
      fun p hp => ((bareHangup_iff hready hp).mp (h p hp)).2.1,
      fun p hp => ((bareHangup_iff hready hp).mp (h p hp)).2.2⟩

/-! ## The loop -/

variable {round : Round} {now : ℤ} {seen : Ready}

theorem Round.wait_ne_lists {waitMs n : ℤ} {reported : Ready} {l : Lists} :
    round.wait now waitMs seen ≠ .error ⟨.lists l, n, reported⟩ := by
  unfold Round.wait
  simp only
  split <;> simp

theorem Round.le_of_wait {waitMs woken : ℤ} (h : round.wait now waitMs seen = .ok woken) : now ≤ woken := by
  unfold Round.wait at h
  simp only at h
  split at h <;> cases h
  omega

theorem Round.run_lists {rfds wfds xfds : Dict Watched} {n : ℤ} {reported : Ready}
    {l : Lists} (hnow : start ≤ now)
    (h : round.run rfds wfds xfds timeout start now seen = .error ⟨.lists l, n, reported⟩) :
    reported = seen ∧ ((round.ready ≠ [] ∧ l = selectMapBack round.ready rfds wfds xfds) ∨
      (round.ready = [] ∧ l = nothing ∧ Elapsed timeout start n)) := by
  unfold Round.run at h
  simp only at h
  split at h
  next hne =>
    cases h
    exact ⟨rfl, .inl ⟨hne, rfl⟩⟩
  next hempty =>
    rw [not_not] at hempty
    split at h
    next => exact absurd h Round.wait_ne_lists
    next t =>
      split at h
      next ht =>
        cases h
        exact ⟨rfl, .inr ⟨hempty, rfl, t, rfl, by omega⟩⟩
      next =>
        split at h
        next hrem =>
          cases h
          exact ⟨rfl, .inr ⟨hempty, rfl, t, rfl, by omega⟩⟩
        next => exact absurd h Round.wait_ne_lists

theorem Round.run_ok {rfds wfds xfds : Dict Watched} {woken : ℤ}
    (h : round.run rfds wfds xfds timeout start now seen = .ok woken) : round.ready = [] ∧ now ≤ woken := by
  unfold Round.run at h
  simp only at h
  split at h
  next => cases h
  next hempty =>
    rw [not_not] at hempty
    split at h
    · have := Round.le_of_wait h
      exact ⟨hempty, by omega⟩
    · split at h
      · cases h
      · split at h
        · cases h
        · have := Round.le_of_wait h
          exact ⟨hempty, by omega⟩

theorem loop_cases {rfds wfds xfds : Dict Watched} {n : ℤ} {reported : Ready} {l : Lists} (hnow : start ≤ now)
    (h : loop rfds wfds xfds timeout start now seen rounds = some ⟨.lists l, n, reported⟩) :
    (∃ round ∈ rounds, round.ready ≠ [] ∧ reported = seen ++ round.ready ∧
      l = selectMapBack round.ready rfds wfds xfds) ∨
    (reported = seen ∧ l = nothing ∧ Elapsed timeout start n) := by
  induction rounds generalizing now seen with
  | nil => cases h
  | cons round rounds ih =>
    rw [loop] at h
    split at h
    next ret hrun =>
      rw [Option.some_inj] at h
      subst h
      obtain ⟨hrep, ⟨hne, hl⟩ | ⟨hempty, hl⟩⟩ := Round.run_lists hnow hrun
      · exact .inl ⟨round, mem_cons_self, hne, hrep, hl⟩
      · rw [hempty, append_nil] at hrep
        exact .inr ⟨hrep, hl⟩
    next woken hrun =>
      -- a drain of this round that found nothing adds nothing to what is reported
      obtain ⟨hempty, hle⟩ := Round.run_ok hrun
      rw [hempty, append_nil] at h
      rcases ih (by omega) h with ⟨r, hr, hrest⟩ | hrest
      · exact .inl ⟨r, mem_cons_of_mem _ hr, hrest⟩
      · exact .inr hrest

/-- A cooperative select returns what a select promises iff the ready members have descriptors of their own,
reported in list order, and a report that is not in time is more than bare hang ups. -/
theorem co_select_promised_iff (registers : ℤ → Mask → Bool) (rounds : List Round) {now : ℤ} {reported : Ready}
    {l : Lists}
    (hrounds : ∀ round ∈ rounds, Reports (masks rlist wlist xlist) round.ready)
    (h : coSelectViaEpoll registers rlist wlist xlist timeout start rounds = some ⟨.lists l, now, reported⟩) :
    Promised rlist wlist xlist timeout start now reported l ↔
      Plain rlist wlist xlist timeout start now reported := by
  unfold coSelectViaEpoll at h
  split at h
  · rcases loop_cases le_rfl h with ⟨round, hround, hne, hrep, hl⟩ | ⟨hrep, hl, hel⟩
    · rw [nil_append] at hrep
      subst hrep hl
      have hready := hrounds round hround
      constructor
      · intro hp
        exact ⟨(pick_eq_filter_iff hready.once).mp hp.r, (pick_eq_filter_iff hready.once).mp hp.w,
          (pick_eq_filter_iff hready.once).mp hp.x,
          fun _ hall => hp.elapsed ((selectMapBack_eq_nothing_iff hready).mpr hall)⟩
      · intro hp
        exact ⟨(pick_eq_filter_iff hready.once).mpr hp.r, (pick_eq_filter_iff hready.once).mpr hp.w,
          (pick_eq_filter_iff hready.once).mpr hp.x,
          fun hnil => hp.answered hne ((selectMapBack_eq_nothing_iff hready).mp hnil)⟩
    · -- nothing was reported: no member is ready, and both sides hold
      subst hrep hl
      refine iff_of_true ⟨?_, ?_, ?_, fun _ => hel⟩ ⟨?_, ?_, ?_, fun hne => absurd rfl hne⟩
      all_goals simp [nothing, InOrder, readyFor]
  · cases h

/-- A socket watched for both and one that is hung up. -/
theorem co_select_promised_iff_twoSockets : Promised [.object 1 5, .object 2 6, .int 7] [.object 1 5] [] none 0 30
      [(5, epollin ||| epollout), (6, epollhup)] ⟨[.object 1 5, .object 2 6], [.object 1 5], []⟩ := by
  have hready : Reports (masks [.object 1 5, .object 2 6, .int 7] [.object 1 5] [])
      [(5, epollin ||| epollout), (6, epollhup)] := by
    refine ⟨by decide, fun p hp => ?_⟩
    rw [mem_pair] at hp
    obtain rfl | rfl := hp
    · exact ⟨by decide, epollin ||| epollout, by decide, by decide⟩
    · exact ⟨by decide, epollin, by decide, by decide⟩
  refine (co_select_promised_iff (fun _ _ => true) [⟨10, [], 0, fun _ => (10, .woken)⟩,
    ⟨10, [(5, epollin ||| epollout), (6, epollhup)], 0, fun _ => (0, .woken)⟩] ?_ (by decide +kernel)).mpr ?_
  · intro round hround
    rw [mem_pair] at hround
    obtain rfl | rfl := hround
    · exact ⟨by decide, fun p hp => absurd hp not_mem_nil⟩
    · exact hready
  · refine ⟨by decide +kernel, by decide +kernel, by decide +kernel, fun _ hall => ?_⟩
    exact absurd (hall (5, epollin ||| epollout) mem_cons_self).1 (by decide)

/-- Of a socket and its own descriptor only the last is returned; a bare hang up in `xlist` ends a select with empty
lists. -/
theorem shared_descriptor_and_hangup : (coSelectViaEpoll (fun _ _ => true) [.object 1 5, .int 5] [] [] none 0
        [⟨0, [(5, epollin)], 0, fun _ => (0, .woken)⟩] = some ⟨.lists ⟨[.int 5], [], []⟩, 0, [(5, epollin)]⟩ ∧
      ¬ Promised [.object 1 5, .int 5] [] [] none 0 0 [(5, epollin)] ⟨[.int 5], [], []⟩) ∧
    (coSelectViaEpoll (fun _ _ => true) [] [] [.object 1 5] none 0
        [⟨0, [(5, epollhup)], 0, fun _ => (0, .woken)⟩] = some ⟨.lists nothing, 0, [(5, epollhup)]⟩ ∧
      ¬ Promised [] [] [.object 1 5] none 0 0 [(5, epollhup)] nothing) := by
  refine ⟨⟨by decide +kernel, fun hp => absurd hp.r (by decide +kernel)⟩, by decide +kernel, fun hp => ?_⟩
  obtain ⟨t, ht, -⟩ := hp.elapsed rfl
  cases ht

end Runloom.CoSelect
