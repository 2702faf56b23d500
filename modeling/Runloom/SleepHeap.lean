import Mathlib.Data.Prod.Lex
import Runloom.Heap.OneBased
import Runloom.Transition.History

/-!
# The sleep heap of a scheduler

Model of `runloom_sleep_push`, `runloom_sleep_pop` and `runloom_sleep_remove`.  The heap belongs to the thread of its
scheduler, so that a call is one step.  Deadlines are of a linear order: the clock gives no NaN.
-/

namespace Runloom.SleepHeap

open Transition Heap

/-- `heap` is `sleep_heap`, with the fibers at 1 to `size`. -/
structure State (F T : Type*) where
  heap : ℕ → F
  size : ℕ
  cap : ℕ
  seqCtr : ℕ
  wakeAt : F → T
  sleepSeq : F → ℕ

variable {F T : Type*} [LinearOrder T]

namespace State

/-- `runloom_sleep_before`. -/
def sleepBefore (s : State F T) (a b : F) : Bool :=
  if s.wakeAt a < s.wakeAt b then true
  else if s.wakeAt b < s.wakeAt a then false
  else decide (s.sleepSeq a < s.sleepSeq b)

section

omit [LinearOrder T]

/-- `runloom_sleep_grow`: `none` for -1.  `realloc` is whether it returned memory. -/
def sleepGrow (s : State F T) ( realloc : Bool) : Option (State F T) :=
  if realloc then some { s with cap := if s.cap = 0 then 16 else s.cap * 2 } else none

def room (s : State F T) ( realloc : Bool) : Option (State F T) :=
  if s.cap < s.size + 1 then s.sleepGrow realloc else some s

end

variable [DecidableEq F]

omit [LinearOrder T] in
def setWakeAt (s : State F T) (g : F) (w : T) : State F T := { s with wakeAt := update s.wakeAt g w }

/-- `runloom_sleep_push`: `none` for -1. -/
def sleepPush (s : State F T) (g : F) ( realloc : Bool) : Option (State F T) :=
  match s.room realloc with
  | none => none
  | some s =>
    let s := { s with
      size := s.size + 1
      sleepSeq := update s.sleepSeq g s.seqCtr
      seqCtr := s.seqCtr + 1
      heap := update s.heap (s.size + 1) g }
    some { s with heap := OneBased.holeUp s.sleepBefore s.heap s.size g }

omit [DecidableEq F] in
/-- `runloom_sleep_pop`: `none` for NULL. -/
def sleepPop (s : State F T) : Option F × State F T :=
  if s.size = 0 then (none, s)
  else
    let top := s.heap 1
    let last := s.heap s.size
    let s := { s with size := s.size - 1 }
    if s.size = 0 then (some top, s)
    else (some top, { s with heap := OneBased.holeDown s.sleepBefore s.heap s.size 1 last })

omit [LinearOrder T] in
/-- The loop `for (i = 1; i <= size; i++) if (heap[i] == g) break`, from `i` on. -/
def find (s : State F T) (g : F) (i : ℕ) : ℕ :=
  if i ≤ s.size ∧ s.heap i ≠ g then s.find g (i + 1) else i
termination_by s.size + 1 - i
decreasing_by omega

/-- `runloom_sleep_remove`, with whether it returned 1. -/
def sleepRemove (s : State F T) (g : F) : Bool × State F T :=
  let i := s.find g 1
  if s.size < i then (false, s)
  else
    let lastI := s.size
    let s := { s with size := s.size - 1 }
    if i = lastI then (true, s)
    else
      let s := { s with heap := update s.heap i (s.heap lastI) }
      let (heap, j) := OneBased.swapUp s.sleepBefore s.heap i
      (true, { s with heap := OneBased.swapDown s.sleepBefore heap s.size j })

omit [LinearOrder T] [DecidableEq F] in
def fibers (s : State F T) : List F := (List.range' 1 s.size).map s.heap

end State

inductive Call (F T : Type*) where
  | push (g : F) (wakeAt : T) ( realloc : Bool)
  | pop
  | remove (g : F)

variable [DecidableEq F]

def step (s : State F T) : Call F T → Option (State F T)
  | .push g w r =>
    if g ∈ s.fibers then none else some (((s.setWakeAt g w).sleepPush g r).getD (s.setWakeAt g w))
  | .pop => some s.sleepPop.2
  | .remove g => some (s.sleepRemove g).2

def system : System (State F T) (Call F T) where
  init s := s.size = 0
  step := step

end Runloom.SleepHeap

/-!
## The sleep heap is a queue ordered by deadline

Over any sequence of calls the heap holds the fibers that were pushed and neither popped nor removed, and a pop takes
the one that is least by its deadline and then by the order of the pushes.
-/

namespace Runloom.SleepHeap

open Transition Heap List

variable {F T : Type*} [LinearOrder T] [DecidableEq F]

omit [LinearOrder T] in
/-- The list without the fiber `g`. -/
def without (live : List (F × T)) (g : F) : List (F × T) := live.filter fun x => x.1 ≠ g

/-- The fibers that are asleep, with their deadlines, in the order of their pushes. -/
def note (live : List (F × T)) (s : State F T) : Call F T → State F T → List (F × T)
  | .push g w r, _ => if ((s.setWakeAt g w).sleepPush g r).isSome then live ++ [(g, w)] else live
  | .pop, _ => s.sleepPop.1.elim live (without live)
  | .remove g, _ => if (s.sleepRemove g).1 then without live g else live

def noted (F T : Type*) [LinearOrder T] [DecidableEq F] : System (State F T × List (F × T)) (Call F T) :=
  system.withHistory [] note

variable {s t : State F T} {live : List (F × T)} {g : F} {w : T}

section

omit [DecidableEq F]

def State.key (s : State F T) (g : F) : T ×ₗ ℕ := toLex (s.wakeAt g, s.sleepSeq g)

theorem State.sleepBefore_iff (s : State F T) (a b : F) : s.sleepBefore a b = true ↔ s.key a < s.key b := by
  unfold State.sleepBefore State.key
  rw [Prod.Lex.toLex_lt_toLex]
  split
  next h => exact iff_of_true rfl (.inl h)
  next h =>
    split
    next h' => exact iff_of_false nofun fun hk => hk.elim h fun hk => h'.ne' hk.1
    next h' =>
      have he : s.wakeAt a = s.wakeAt b := le_antisymm (not_lt.mp h') (not_lt.mp h)
      simp [he]

end

structure Inv (s : State F T) (live : List (F × T)) : Prop where
  ordered : Ordered oneBased s.key s.heap (s.size + 1)
  contents : entries oneBased s.heap (s.size + 1) = live.map Prod.fst
  nodup : (live.map Prod.fst).Nodup
  wakeAt {x : F × T} (hx : x ∈ live) : s.wakeAt x.1 = x.2
  sequence : live.Pairwise fun x y => s.sleepSeq x.1 < s.sleepSeq y.1
  below {x : F × T} (hx : x ∈ live) : s.sleepSeq x.1 < s.seqCtr

section

omit [DecidableEq F]

theorem Inv.of_init (h : s.size = 0) : Inv s [] where
  ordered i hr hi := by
    have : 1 < i := hr
    omega
  contents := by
    rw [h]
    exact entries_root _
  nodup := .nil
  wakeAt := nofun
  sequence := .nil
  below := nofun

theorem Inv.mem_iff (hI : Inv s live) : g ∈ s.fibers ↔ g ∈ live.map Prod.fst := by
  rw [← Multiset.mem_coe (l := live.map Prod.fst), ← hI.contents]
  rfl

theorem Inv.key_mem (hI : Inv s live) (hg : g ∈ entries oneBased s.heap (s.size + 1)) : ∃ w, (g, w) ∈ live := by
  rw [hI.contents, Multiset.mem_coe, mem_map] at hg
  obtain ⟨x, hx, rfl⟩ := hg
  exact ⟨x.2, hx⟩

theorem Inv.congr (hI : Inv s live) (hheap : t.heap = s.heap) (hsize : t.size = s.size) (hctr : t.seqCtr = s.seqCtr)
    (hwake : ∀ x ∈ live, t.wakeAt x.1 = s.wakeAt x.1) (hseq : t.sleepSeq = s.sleepSeq) : Inv t live where
  ordered := by
    rw [hheap, hsize]
    refine hI.ordered.congr_key fun g hg => ?_
    obtain ⟨w, hx⟩ := hI.key_mem hg
    rw [State.key, State.key, hwake _ hx, hseq]
  contents := by rw [hheap, hsize, hI.contents]
  nodup := hI.nodup
  wakeAt hx := (hwake _ hx).trans (hI.wakeAt hx)
  sequence := hseq ▸ hI.sequence
  below hx := by
    rw [hseq, hctr]
    exact hI.below hx

end

theorem Inv.setWakeAt (hI : Inv s live) (hg : g ∉ live.map Prod.fst) : Inv (s.setWakeAt g w) live := by
  refine hI.congr rfl rfl rfl (fun x hx => ?_) rfl
  have hne : x.1 ≠ g := fun e => hg (e ▸ mem_map_of_mem hx)
  exact update_of_ne hne _ _

omit [LinearOrder T] [DecidableEq F] in
theorem State.room_eq {r : Bool} (h : s.room r = some t) : ∃ cap, t = { s with cap := cap } := by
  unfold State.room State.sleepGrow at h
  split at h
  · split at h <;> cases h
    exact ⟨_, rfl⟩
  · cases h
    exact ⟨_, rfl⟩

theorem Inv.push {r : Bool} (hI : Inv s live) (hg : g ∉ live.map Prod.fst) (hw : s.wakeAt g = w)
    (h : s.sleepPush g r = some t) : Inv t (live ++ [(g, w)]) := by
  unfold State.sleepPush at h
  split at h <;> cases h
  next u hu =>
    obtain ⟨cap, rfl⟩ := State.room_eq hu
    have hne : ∀ x ∈ live, x.1 ≠ g := fun x hx e => hg (e ▸ mem_map_of_mem hx)
    have hseq : ∀ x ∈ live, update s.sleepSeq g s.seqCtr x.1 = s.sleepSeq x.1 :=
      fun x hx => update_of_ne (hne x hx) _ _
    -- The entries keep their keys, so that they are in order by the new fields as well.
    let u : State F T := { s with
      cap := cap
      size := s.size + 1
      sleepSeq := update s.sleepSeq g s.seqCtr
      seqCtr := s.seqCtr + 1
      heap := update s.heap (s.size + 1) g }
    have hord : Ordered oneBased u.key s.heap (s.size + 1) := by
      refine hI.ordered.congr_key fun g' hg' => ?_
      obtain ⟨w', hx⟩ := hI.key_mem hg'
      exact congrArg (fun k => toLex (s.wakeAt g', k)) (hseq _ hx)
    obtain ⟨ho, he⟩ := OneBased.push_spec u.sleepBefore_iff hord g
    rw [← OneBased.holeUp_update _ _ _ _ g] at ho he
    refine ⟨ho, ?_, ?_, fun {x} hx => ?_, ?_, fun {x} hx => ?_⟩
    · refine he.trans ?_
      rw [hI.contents, map_append, Multiset.cons_coe, Multiset.coe_eq_coe]
      exact (perm_append_singleton g _).symm
    · rw [map_append]
      refine nodup_append.mpr ⟨hI.nodup, nodup_singleton g, fun a ha b hb e => hg ?_⟩
      cases mem_singleton.mp hb
      cases e
      exact ha
    · rcases mem_append.mp hx with hx | hx
      · exact hI.wakeAt hx
      · cases mem_singleton.mp hx
        exact hw
    · refine pairwise_append.mpr ⟨?_, pairwise_singleton _ _, fun x hx y hy => ?_⟩
      · refine hI.sequence.imp_of_mem fun {x y} hx hy hxy => ?_
        show update s.sleepSeq g s.seqCtr x.1 < update s.sleepSeq g s.seqCtr y.1
        rwa [hseq x hx, hseq y hy]
      · cases mem_singleton.mp hy
        show update s.sleepSeq g s.seqCtr x.1 < update s.sleepSeq g s.seqCtr g
        rw [hseq x hx, update_self]
        exact hI.below hx
    · show update s.sleepSeq g s.seqCtr x.1 < s.seqCtr + 1
      rcases mem_append.mp hx with hx | hx
      · rw [hseq x hx]
        exact (hI.below hx).trans (Nat.lt_succ_self _)
      · cases mem_singleton.mp hx
        rw [update_self]
        exact Nat.lt_succ_self _

theorem Inv.leave (hI : Inv s live) (hord : Ordered oneBased s.key t.heap (t.size + 1))
    (hent : g ::ₘ entries oneBased t.heap (t.size + 1) = entries oneBased s.heap (s.size + 1))
    (hwake : t.wakeAt = s.wakeAt) (hseq : t.sleepSeq = s.sleepSeq) (hctr : t.seqCtr = s.seqCtr) :
    Inv t (without live g) where
  ordered := by
    have hkey : t.key = s.key := by
      funext x
      rw [State.key, State.key, hwake, hseq]
    rw [hkey]
    exact hord
  contents := by
    rw [hI.contents] at hent
    have hmem : g ∈ live.map Prod.fst := by
      rw [← Multiset.mem_coe, ← hent]
      exact Multiset.mem_cons_self _ _
    have hwithout : (without live g).map Prod.fst = (live.map Prod.fst).erase g := by
      rw [hI.nodup.erase_eq_filter, filter_map]
      congr 1
      apply filter_congr
      intro x _
      rw [Function.comp_apply, bne, Bool.beq_eq_decide_eq, decide_not]
    rw [hwithout, ← Multiset.coe_erase, ← hent, Multiset.erase_cons_head]
  nodup := hI.nodup.sublist (filter_sublist.map _)
  wakeAt hx := by
    rw [hwake]
    exact hI.wakeAt (mem_of_mem_filter hx)
  sequence := by
    rw [hseq]
    exact hI.sequence.sublist filter_sublist
  below hx := by
    rw [hseq, hctr]
    exact hI.below (mem_of_mem_filter hx)

theorem Inv.pop (hI : Inv s live) :
    match s.sleepPop with
    | (none, t) => live = [] ∧ t = s
    | (some g, t) => Inv t (without live g) ∧ g = s.heap 1 ∧ 0 < s.size := by
  unfold State.sleepPop
  cases hn : s.size with
  | zero =>
    refine ⟨?_, rfl⟩
    have hc := hI.contents
    rw [hn] at hc
    have hnil : live.map Prod.fst = [] := (Multiset.coe_eq_zero _).mp (hc.symm.trans (entries_root _))
    exact map_eq_nil_iff.mp hnil
  | succ n =>
    have hord := hI.ordered
    rw [hn] at hord
    rw [if_neg (Nat.succ_ne_zero n)]
    simp only [Nat.add_sub_cancel]
    by_cases hzero : n = 0
    · -- The only entry goes.
      subst hzero
      obtain ⟨ho, he⟩ := OneBased.tail_spec hord
      rw [if_pos rfl]
      refine ⟨hI.leave ho ?_ rfl rfl rfl, rfl, Nat.one_pos⟩
      rw [hn]
      exact he
    · obtain ⟨ho, he⟩ := OneBased.pop_spec s.sleepBefore_iff hord hzero
      rw [if_neg hzero]
      refine ⟨hI.leave ho ?_ rfl rfl rfl, rfl, Nat.succ_pos n⟩
      rw [hn]
      exact he

omit [LinearOrder T] in
theorem State.find_spec (s : State F T) (g : F) {i : ℕ} (hi : i ≤ s.size + 1) :
    i ≤ s.find g i ∧ (∀ j, i ≤ j → j < s.find g i → s.heap j ≠ g) ∧
      (s.find g i ≤ s.size ∧ s.heap (s.find g i) = g ∨ s.find g i = s.size + 1) := by
  induction i using State.find.induct s g with
  | case1 i hc ih =>
    rw [State.find, if_pos hc]
    obtain ⟨hle, hbefore, hend⟩ := ih (by omega)
    refine ⟨by omega, fun j hj hlt => ?_, hend⟩
    rcases hj.eq_or_lt with rfl | hj
    · exact hc.2
    · exact hbefore j hj hlt
  | case2 i hc =>
    rw [State.find, if_neg hc]
    refine ⟨le_rfl, fun j hj hlt => absurd hj (not_le.mpr hlt), ?_⟩
    by_cases hs : i ≤ s.size
    · exact .inl ⟨hs, not_not.mp fun hne => hc ⟨hs, hne⟩⟩
    · exact .inr (by omega)

theorem Inv.remove_of_notMem (hI : Inv s live) (hg : g ∉ live.map Prod.fst) : s.sleepRemove g = (false, s) := by
  unfold State.sleepRemove
  rcases (s.find_spec g (i := 1) (by omega)).2.2 with ⟨hle, heq⟩ | hend
  · refine absurd (hI.mem_iff.mp ?_) hg
    have hone := (s.find_spec g (i := 1) (by omega)).1
    exact mem_map.mpr ⟨s.find g 1, mem_range'_1.mpr ⟨hone, by omega⟩, heq⟩
  · rw [hend]
    exact if_pos (Nat.lt_succ_self _)

theorem Inv.remove (hI : Inv s live) (hg : g ∈ live.map Prod.fst) :
    (s.sleepRemove g).1 = true ∧ Inv (s.sleepRemove g).2 (without live g) := by
  obtain ⟨hone, hbefore, hend⟩ := s.find_spec g (i := 1) (by omega)
  have hfound : s.find g 1 ≤ s.size ∧ s.heap (s.find g 1) = g := by
    refine hend.resolve_right fun hlast => ?_
    obtain ⟨j, hj, hjg⟩ := mem_map.mp (hI.mem_iff.mpr hg)
    obtain ⟨hj1, hjn⟩ := mem_range'_1.mp hj
    exact hbefore j hj1 (by omega) hjg
  obtain ⟨n, hn⟩ : ∃ n, s.size = n + 1 := ⟨s.size - 1, by omega⟩
  have hord := hI.ordered
  rw [hn] at hord
  unfold State.sleepRemove
  dsimp only
  rw [if_neg (not_lt.mpr hfound.1)]
  generalize s.find g 1 = i at hone hfound
  obtain ⟨hle, rfl⟩ := hfound
  by_cases hlast : i = s.size
  · -- The tail itself goes.
    obtain ⟨ho, he⟩ := OneBased.tail_spec hord
    rw [if_pos hlast]
    refine ⟨rfl, hI.leave ?_ ?_ rfl rfl rfl⟩
    · dsimp only
      rw [hn]
      exact ho
    · dsimp only
      rw [hlast, hn]
      exact he
  · obtain ⟨ho, he⟩ := OneBased.remove_spec s.sleepBefore_iff hord (show 1 ≤ i ∧ i < n + 1 by omega) _ rfl
    rw [if_neg hlast]
    refine ⟨rfl, hI.leave ?_ ?_ rfl rfl rfl⟩
    · dsimp only
      rw [hn]
      exact ho
    · dsimp only
      rw [hn]
      exact he

theorem Inv.step {c : Call F T} (hI : Inv s live) (h : system.step s c = some t) : Inv t (note live s c t) := by
  cases c with
  | push g w r =>
    simp only [system, SleepHeap.step, Option.ite_none_left_eq_some, Option.some.injEq] at h
    obtain ⟨hg, rfl⟩ := h
    rw [hI.mem_iff] at hg
    have hset : Inv (s.setWakeAt g w) live := hI.setWakeAt hg
    simp only [note]
    cases hp : (s.setWakeAt g w).sleepPush g r with
    | none => exact hset
    | some u => exact hset.push hg (update_self ..) hp
  | pop =>
    cases h
    have hpop := hI.pop
    simp only [note]
    rcases hp : s.sleepPop with ⟨_ | g, u⟩
    · rw [hp] at hpop
      rw [hpop.2]
      exact hI
    · rw [hp] at hpop
      exact hpop.1
  | remove g =>
    cases h
    simp only [note]
    by_cases hg : g ∈ live.map Prod.fst
    · obtain ⟨htrue, hinv⟩ := hI.remove hg
      rw [if_pos htrue]
      exact hinv
    · rw [hI.remove_of_notMem hg]
      exact hI

theorem inv_of_reachable {x : State F T × List (F × T)} (hx : (noted F T).Reachable x) : Inv x.1 x.2 := by
  refine hx.invariant (P := fun x => Inv x.1 x.2) (fun x hi => ?_) ?_
  · rw [hi.2]
    exact .of_init hi.1
  · rintro x c y hI - hstep
    obtain ⟨hs, hnote⟩ := System.withHistory_step hstep
    rw [hnote]
    exact hI.step hs

/-- The heap and the answers of the next call, for the fibers `live`. -/
structure Exact (s : State F T) (live : List (F × T)) : Prop where
  fibers : s.fibers.Perm (live.map Prod.fst)
  nodup : (live.map Prod.fst).Nodup
  wakeAt (x : F × T) (hx : x ∈ live) : s.wakeAt x.1 = x.2
  empty : s.sleepPop.1 = none ↔ live = []
  least (g : F) (hg : s.sleepPop.1 = some g) :
    ∃ l w r, live = l ++ (g, w) :: r ∧ (∀ x ∈ l, w < x.2) ∧ ∀ x ∈ r, w ≤ x.2
  present (g : F) (hg : g ∈ live.map Prod.fst) : (s.sleepRemove g).1 = true
  absent (g : F) (hg : g ∉ live.map Prod.fst) : s.sleepRemove g = (false, s)

omit [DecidableEq F] in
theorem Inv.least (hI : Inv s live) (hpos : 0 < s.size) :
    ∃ l w r, live = l ++ (s.heap 1, w) :: r ∧ (∀ x ∈ l, w < x.2) ∧ ∀ x ∈ r, w ≤ x.2 := by
  have hroot : s.heap 1 ∈ entries oneBased s.heap (s.size + 1) :=
    mem_entries.mpr ⟨1, le_rfl, by omega, rfl⟩
  obtain ⟨w, hmem⟩ := hI.key_mem hroot
  obtain ⟨l, r, hlive⟩ := append_of_mem hmem
  have hkey : ∀ x ∈ live, w < x.2 ∨ w = x.2 ∧ s.sleepSeq (s.heap 1) ≤ s.sleepSeq x.1 := by
    intro x hx
    have hin : x.1 ∈ entries oneBased s.heap (s.size + 1) := by
      rw [hI.contents]
      exact Multiset.mem_coe.mpr (mem_map_of_mem hx)
    obtain ⟨i, hi, hn, hix⟩ := mem_entries.mp hin
    have hle : s.key (s.heap 1) ≤ s.key (s.heap i) := hI.ordered.root_le hi hn
    have hw : s.wakeAt (s.heap 1) = w := hI.wakeAt hmem
    rw [hix, State.key, State.key, Prod.Lex.toLex_le_toLex, hI.wakeAt hx, hw] at hle
    exact hle
  refine ⟨l, w, r, hlive, fun x hx => ?_, fun x hx => ?_⟩
  · -- A fiber that was pushed before has a lower number.
    have hseq := hI.sequence
    rw [hlive] at hseq
    have hlt := (pairwise_append.mp hseq).2.2 x hx _ mem_cons_self
    refine (hkey x (hlive ▸ mem_append_left _ hx)).resolve_right fun h => ?_
    exact absurd h.2 (not_le.mpr hlt)
  · rcases hkey x (hlive ▸ mem_append_right _ (mem_cons_of_mem _ hx)) with h | h
    · exact h.le
    · exact h.1.le

theorem Inv.exact (hI : Inv s live) : Exact s live where
  fibers := Multiset.coe_eq_coe.mp hI.contents
  nodup := hI.nodup
  wakeAt _ hx := hI.wakeAt hx
  empty := by
    have hpop := hI.pop
    rcases hp : s.sleepPop with ⟨_ | g, u⟩
    · rw [hp] at hpop
      exact iff_of_true rfl hpop.1
    · rw [hp] at hpop
      refine iff_of_false nofun fun hnil => ?_
      obtain ⟨l, w, r, hlive, -⟩ := hI.least hpop.2.2
      rw [hnil] at hlive
      exact append_ne_nil_of_right_ne_nil l (cons_ne_nil _ r) hlive.symm
  least g hg := by
    have hpop := hI.pop
    rcases hp : s.sleepPop with ⟨_ | g', u⟩
    · rw [hp] at hg
      cases hg
    · rw [hp] at hpop hg
      cases hg
      rw [hpop.2.1]
      exact hI.least hpop.2.2
  present _ hg := (hI.remove hg).1
  absent _ hg := hI.remove_of_notMem hg

/-- The heap holds the fibers that are asleep, a pop returns the least of them, and a removal leaves the others. -/
theorem sleep_heap_exact (x : State F T × List (F × T)) (hx : (noted F T).Reachable x) : Exact x.1 x.2 :=
  (inv_of_reachable hx).exact

def emptyHeap : State ℕ ℕ := ⟨fun _ => 0, 0, 0, 0, fun _ => 0, fun _ => 0⟩

/-- Fibers 1 and 3 have the same deadline, and fiber 2 is taken out again. -/
def threeSleepers : List (Call ℕ ℕ) :=
  [.push 1 20 true, .push 2 10 true, .push 3 20 true, .remove 2, .remove 2]

theorem sleep_heap_exact_threeSleepers :
    ∃ x, (noted ℕ ℕ).Reachable x ∧ x.2 = [(1, 20), (3, 20)] ∧ x.1.sleepPop.1 = some 1 ∧ Exact x.1 x.2 := by
  obtain ⟨x, hx, hlive, hpop⟩ := (noted ℕ ℕ).reaches
    (fun x => x.2 = [(1, 20), (3, 20)] ∧ x.1.sleepPop.1 = some 1) threeSleepers
    (s := (emptyHeap, [])) ⟨rfl, rfl⟩ (by decide +kernel)
  exact ⟨x, hx, hlive, hpop, sleep_heap_exact x hx⟩

/-! ## Waking the sleepers -/

omit [DecidableEq F] in
theorem State.sleepPop_size (h : s.size ≠ 0) : s.sleepPop.2.size < s.size := by
  unfold State.sleepPop
  rw [if_neg h]
  dsimp only
  split_ifs <;> exact Nat.sub_one_lt h

omit [DecidableEq F] in
/-- The loop of `runloom_sched_drain` that moves sleepers to the ready ring.  `clk` is the clock at which a fiber is
looked at, the wall clock if it has `sleep_real`. -/
def State.wakeSleepers (s : State F T) (clk : F → T) : List F × State F T :=
  if s.size = 0 ∨ clk (s.heap 1) < s.wakeAt (s.heap 1) then ([], s)
  else (s.sleepPop.1.toList ++ (s.sleepPop.2.wakeSleepers clk).1, (s.sleepPop.2.wakeSleepers clk).2)
termination_by s.size
decreasing_by all_goals exact State.sleepPop_size (not_or.mp ‹_›).1

omit [DecidableEq F] in
/-- By deadline, and otherwise in the order of the pushes. -/
def inOrder (live : List (F × T)) : List (F × T) := live.insertionSort fun x y => x.2 ≤ y.2

section

omit [DecidableEq F]

theorem inOrder_least {l r : List (F × T)} {x : F × T} (hl : ∀ y ∈ l, x.2 < y.2) (hr : ∀ y ∈ r, x.2 ≤ y.2) :
    inOrder (l ++ x :: r) = x :: inOrder (l ++ r) := by
  induction l with
  | nil => exact insertionSort_cons_of_forall_rel _ hr
  | cons y l ih =>
    have ih := ih fun z hz => hl z (mem_cons_of_mem _ hz)
    unfold inOrder at ih ⊢
    rw [cons_append, insertionSort_cons, ih, orderedInsert_cons, if_neg (not_le.mpr (hl y mem_cons_self))]
    rfl

theorem inOrder_sorted (live : List (F × T)) : (inOrder live).Pairwise (·.2 ≤ ·.2) :=
  haveI : Std.Total fun x y : F × T => x.2 ≤ y.2 := ⟨fun x y => le_total x.2 y.2⟩
  haveI : IsTrans (F × T) fun x y => x.2 ≤ y.2 := ⟨fun _ _ _ => le_trans⟩
  pairwise_insertionSort _ live

theorem takeWhile_sorted {l : List (F × T)} (h : l.Pairwise (·.2 ≤ ·.2)) (now : T) :
    l.takeWhile (fun x => x.2 ≤ now) = l.filter fun x => x.2 ≤ now := by
  induction h with
  | nil => rfl
  | @cons x l hx _ ih =>
    by_cases hdue : x.2 ≤ now
    · rw [takeWhile_cons_of_pos (by simpa using hdue), filter_cons_of_pos (by simpa using hdue), ih]
    · rw [takeWhile_cons_of_neg (by simpa using hdue), filter_cons_of_neg (by simpa using hdue)]
      refine (filter_eq_nil_iff.mpr fun y hy => ?_).symm
      simpa using (not_le.mp hdue).trans_le (hx y hy)

end

theorem Inv.without_least (hI : Inv s live) {l r : List (F × T)} (h : live = l ++ (g, w) :: r) :
    without live g = l ++ r := by
  have hnodup := hI.nodup
  rw [h, map_append, map_cons, nodup_middle, nodup_cons, ← map_append] at hnodup
  rw [without, h, filter_append, filter_cons_of_neg (by simp), ← filter_append]
  exact filter_eq_self.mpr fun x hx => decide_eq_true fun he => hnodup.1 (mem_map.mpr ⟨x, hx, he⟩)

theorem Inv.wakeSleepers (hI : Inv s live) (clk : F → T) :
    (s.wakeSleepers clk).1 = ((inOrder live).takeWhile fun x => x.2 ≤ clk x.1).map Prod.fst ∧
      Inv (s.wakeSleepers clk).2 (live.filter fun x => x.1 ∉ (s.wakeSleepers clk).1) := by
  fun_induction State.wakeSleepers s clk generalizing live with
  | case1 s h =>
    refine ⟨?_, by simpa using hI⟩
    rcases Nat.eq_zero_or_pos s.size with h0 | hpos
    · have hpop := hI.pop
      simp only [State.sleepPop, h0, if_true] at hpop
      rw [hpop.1]
      rfl
    · obtain ⟨l, w, r, rfl, hl, hr⟩ := hI.least hpos
      have hw : s.wakeAt (s.heap 1) = w := hI.wakeAt (mem_append_right l mem_cons_self)
      have hlate := h.resolve_left hpos.ne'
      rw [inOrder_least hl hr, takeWhile_cons_of_neg (by simpa [hw] using hlate)]
      rfl
  | case2 s h ih =>
    obtain ⟨hsize, hnow⟩ := not_or.mp h
    obtain ⟨l, w, r, hlive, hl, hr⟩ := hI.least (Nat.pos_of_ne_zero hsize)
    have hw : s.wakeAt (s.heap 1) = w := hI.wakeAt (hlive ▸ mem_append_right l mem_cons_self)
    have hpop := hI.pop
    rcases hp : s.sleepPop with ⟨_ | g, u⟩ <;> rw [hp] at hpop ih
    · rw [hpop.1] at hlive
      exact absurd hlive.symm (append_ne_nil_of_right_ne_nil l (cons_ne_nil _ r))
    · obtain ⟨hI', rfl, -⟩ := hpop
      obtain ⟨hwoken, hrest⟩ := ih hI'
      rw [hI.without_least hlive] at hwoken
      refine ⟨?_, ?_⟩
      · rw [hlive, inOrder_least hl hr, takeWhile_cons_of_pos (by simpa [hw] using hnow), hwoken]
        rfl
      · rw [without, filter_filter] at hrest
        simpa [not_or, and_comm] using hrest

/-- The loop wakes sleepers by deadline and order of the pushes up to the first that is not due, and leaves the others
asleep; with one clock it wakes all that are due. -/
theorem sleepers_woken_in_order (x : State F T × List (F × T)) (hx : (noted F T).Reachable x) (clk : F → T) :
    (x.1.wakeSleepers clk).1 = ((inOrder x.2).takeWhile fun y => y.2 ≤ clk y.1).map Prod.fst ∧
    Exact (x.1.wakeSleepers clk).2 (x.2.filter fun y => y.1 ∉ (x.1.wakeSleepers clk).1) ∧
    ∀ now, (∀ g, clk g = now) →
      (x.1.wakeSleepers clk).1 = ((inOrder x.2).filter fun y => y.2 ≤ now).map Prod.fst := by
  obtain ⟨hwoken, hrest⟩ := (inv_of_reachable hx).wakeSleepers clk
  refine ⟨hwoken, hrest.exact, fun now hnow => ?_⟩
  rw [hwoken]
  simp only [hnow]
  rw [takeWhile_sorted (inOrder_sorted _)]

/-- Fiber 3 is due and fiber 2, which is before it, is not. -/
theorem sleepers_woken_in_order_two_clocks : ∃ x, (noted ℕ ℕ).Reachable x ∧ x.2 = [(3, 30), (1, 20), (2, 20)] ∧
      (x.1.wakeSleepers fun g => if g = 2 then 10 else 40).1 = [1] ∧ (x.1.wakeSleepers fun _ => 40).1 = [1, 2, 3] := by
  obtain ⟨x, hx, hlive⟩ := (noted ℕ ℕ).reaches (fun x => x.2 = [(3, 30), (1, 20), (2, 20)])
    [.push 3 30 true, .push 1 20 true, .push 2 20 true] (s := (emptyHeap, [])) ⟨rfl, rfl⟩ (by decide +kernel)
  refine ⟨x, hx, hlive, ?_, ?_⟩
  · rw [(sleepers_woken_in_order x hx _).1, hlive]
    decide
  · rw [(sleepers_woken_in_order x hx _).2.2 40 fun _ => rfl, hlive]
    decide

end Runloom.SleepHeap
