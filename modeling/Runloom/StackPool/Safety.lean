import Mathlib.Data.List.Count
import Mathlib.Data.List.Nodup
import Mathlib.Data.List.Perm.Subperm
import Runloom.StackPool.Model

/-!
# Each stack has one place

Every function of the pools moves stacks between the lists that its thread can reach, with some in its hand meanwhile:
`Moves`.  The moves compose, and what a whole call does to the partition follows from the composition.
-/

namespace Runloom.StackPool

open Transition List

variable {T : Type*} {s s' s'' : State T} {t : T} {x : Stack} {size : ℕ} {cap : ℤ} {hand hand' hand'' : List Stack}

/-! ## The loops -/

def Pool.Counted (p : Pool) : Prop :=
  p.n = p.list.length

theorem popList_spec (size : ℕ) (l : List Stack) (n : ℤ) :
    ((popList size l n).1.toList ++ (popList size l n).2.1.list ++ (popList size l n).2.2).Perm l ∧
      ((⟨l, n⟩ : Pool).Counted → (popList size l n).2.1.Counted) ∧
      (∀ x, (popList size l n).1 = some x → x.size = size) ∧
      ((popList size l n).1 = none → (popList size l n).2.1.list = [] ∧ ∀ x ∈ l, x.size ≠ size) := by
  induction l generalizing n with
  | nil => exact ⟨.refl _, id, nofun, fun _ => ⟨rfl, nofun⟩⟩
  | cons y l ih =>
    rw [popList]
    split
    next hy =>
      refine ⟨by simp, fun h => ?_, fun x hx => Option.some.inj hx ▸ hy, nofun⟩
      simp only [Pool.Counted, length_cons] at h ⊢
      omega
    next hy =>
      obtain ⟨h1, h2, h3, h4⟩ := ih (n - 1)
      refine ⟨perm_middle.trans (h1.cons y), fun h => h2 ?_, h3, fun hn => ⟨(h4 hn).1, ?_⟩⟩
      · simp only [Pool.Counted, length_cons] at h ⊢
        omega
      · exact forall_mem_cons.mpr ⟨hy, (h4 hn).2⟩

theorem refillList_spec (size k : ℕ) (l : List Stack) (n : ℤ) (p : Pool) :
    ((refillList size k l n p).1.list ++ (refillList size k l n p).2.1.list ++ (refillList size k l n p).2.2).Perm
        (l ++ p.list) ∧
      ((⟨l, n⟩ : Pool).Counted → (refillList size k l n p).1.Counted) ∧
      (p.Counted → (refillList size k l n p).2.1.Counted) ∧ p.list ⊆ (refillList size k l n p).2.1.list ∧
      (0 < k → (∃ x ∈ l, x.size = size) → ∃ x ∈ (refillList size k l n p).2.1.list, x.size = size) := by
  induction k, l, n, p using refillList.induct size with
  | case1 l n p | case2 k n p => simp [refillList]
  | case3 k x l n p hx ih =>
    obtain ⟨h1, h2, h3, h4, -⟩ := ih
    simp only [refillList, if_pos hx]
    refine ⟨h1.trans perm_middle, fun h => h2 ?_, fun h => h3 ?_, fun y hy => h4 (mem_cons_of_mem x hy),
      fun _ _ => ⟨x, h4 mem_cons_self, hx⟩⟩
    · simp only [Pool.Counted, length_cons] at h ⊢
      omega
    · simp only [Pool.Counted, Pool.push, length_cons] at h ⊢
      omega
  | case4 k x l n p hx _ _ _ _ ih =>
    obtain ⟨h1, h2, h3, h4, h5⟩ := ih
    simp only [refillList, if_neg hx]
    refine ⟨perm_middle.trans (h1.cons x), fun h => h2 ?_, h3, h4, fun hk hex => h5 hk ?_⟩
    · simp only [Pool.Counted, length_cons] at h ⊢
      omega
    · obtain ⟨y, hy, hsize⟩ := hex
      rcases mem_cons.mp hy with rfl | hy
      · exact absurd hsize hx
      · exact ⟨y, hy, hsize⟩

/-! ## Moves -/

/-- The lists that a thread can reach. -/
def State.reach (s : State T) (t : T) : List Stack :=
  s.out ++ s.depot.list ++ s.unmapped ++ (s.cache t).list

structure Counts (s : State T) : Prop where
  cache : ∀ t, (s.cache t).Counted
  depot : s.depot.Counted
  pushes : ∀ e ∈ s.pushes, (e.1 : ℤ) < e.2

/-- The hand of `t` and the lists in its reach hold the same stacks. -/
structure Moves (t : T) (s : State T) (hand : List Stack) (s' : State T) (hand' : List Stack) : Prop where
  perm : (hand' ++ s'.reach t).Perm (hand ++ s.reach t)
  others : ∀ u, u ≠ t → s'.cache u = s.cache u
  maps : s'.maps = s.maps
  counts : Counts s → Counts s'

namespace Moves

theorem refl (t : T) (s : State T) (hand : List Stack) : Moves t s hand s hand :=
  ⟨.refl _, fun _ _ => rfl, rfl, id⟩

theorem trans (h : Moves t s hand s' hand') (h' : Moves t s' hand' s'' hand'') : Moves t s hand s'' hand'' :=
  ⟨h'.perm.trans h.perm, fun u hu => (h'.others u hu).trans (h.others u hu), h'.maps.trans h.maps,
    fun hc => h'.counts (h.counts hc)⟩

theorem fields (n : ℤ) (w : T → Option Warm) (k : ℕ) :
    Moves t s hand { s with live := n, warm := w, slices := k } hand :=
  ⟨.refl _, fun _ _ => rfl, rfl, fun h => ⟨h.cache, h.depot, h.pushes⟩⟩

/-- More stacks in the hand, and other mappings, change nothing. -/
theorem frame (h : Moves t s hand s' hand') (m l : List Stack) :
    Moves t { s with maps := m } (l ++ hand) { s' with maps := m } (l ++ hand') where
  perm := by
    rw [append_assoc, append_assoc]
    exact h.perm.append_left l
  others := h.others
  maps := rfl
  counts hc :=
    have h' := h.counts ⟨hc.cache, hc.depot, hc.pushes⟩
    ⟨h'.cache, h'.depot, h'.pushes⟩

theorem handOut : Moves t s (x :: hand) (s.handOut x) hand where
  perm := by
    rw [perm_iff_count]
    intro y
    simp only [State.reach, State.handOut, count_append, count_cons]
    omega
  others _ _ := rfl
  maps := rfl
  counts h := ⟨h.cache, h.depot, h.pushes⟩

theorem unmap (l : List Stack) : Moves t s (l ++ hand) (s.unmap l) hand where
  perm := by
    rw [perm_iff_count]
    intro y
    simp only [State.reach, State.unmap, count_append]
    omega
  others _ _ := rfl
  maps := rfl
  counts h := ⟨h.cache, h.depot, h.pushes⟩

theorem takeBack (h : x ∈ s.out) : Moves t s [] { s with out := s.out.erase x } [x] where
  perm := by
    rw [perm_iff_count]
    intro y
    have := (perm_cons_erase h).count_eq y
    simp only [State.reach, count_append, count_cons, count_nil] at this ⊢
    omega
  others _ _ := rfl
  maps := rfl
  counts h := ⟨h.cache, h.depot, h.pushes⟩

theorem depotPush (h : s.depot.n < cap) : Moves t s (x :: hand)
      { s with depot := s.depot.push x, pushes := (s.depot.list.length, cap) :: s.pushes } hand where
  perm := by
    rw [perm_iff_count]
    intro y
    simp only [State.reach, Pool.push, count_append, count_cons]
    omega
  others _ _ := rfl
  maps := rfl
  counts hc := by
    have hd : s.depot.n = s.depot.list.length := hc.depot
    refine ⟨hc.cache, ?_, forall_mem_cons.mpr ⟨?_, hc.pushes⟩⟩
    · simp only [Pool.Counted, Pool.push, length_cons]
      omega
    · exact hd ▸ h

theorem flushList (l : List Stack) (s : State T) : Moves t s l (s.flushList cap l) [] := by
  induction l generalizing s with
  | nil => exact refl t s []
  | cons x l ih =>
    rw [State.flushList]
    split
    next h => exact (depotPush h).trans (ih _)
    next => exact (unmap [x]).trans (ih _)

variable [DecidableEq T]

/-- A change of the cache of `t`, and of the depot. -/
theorem pools {p q : Pool} {m : List Stack} (hp : (m ++ q.list ++ p.list).Perm (hand ++ s.depot.list ++ (s.cache t).list))
    (hcp : Counts s → p.Counted) (hcq : Counts s → q.Counted) :
    Moves t s hand { s with depot := q, cache := update s.cache t p } m where
  perm := by
    rw [perm_iff_count]
    intro y
    have := hp.count_eq y
    simp only [State.reach, update_self, count_append] at this ⊢
    omega
  others u hu := update_of_ne hu _ _
  maps := rfl
  counts h := by
    refine ⟨fun u => ?_, hcq h, h.pushes⟩
    show (update s.cache t p u).Counted
    by_cases hu : u = t
    · subst hu
      rw [update_self]
      exact hcp h
    · rw [update_of_ne hu]
      exact h.cache u

theorem popLocal (t : T) (size : ℕ) : Moves t s [] (s.popLocal t size).2 (s.popLocal t size).1.toList := by
  obtain ⟨hperm, hcount, -, -⟩ := popList_spec size (s.cache t).list (s.cache t).n
  refine (pools (q := s.depot) (p := (popList size (s.cache t).list (s.cache t).n).2.1)
    (m := (popList size (s.cache t).list (s.cache t).n).2.2 ++
      (popList size (s.cache t).list (s.cache t).n).1.toList) ?_ ?_ fun h => h.depot).trans (.unmap _)
  · rw [perm_iff_count]
    intro y
    have := hperm.count_eq y
    simp only [count_append, count_nil] at this ⊢
    omega
  · exact fun h => hcount (h.cache t)

theorem refill (t : T) (size : ℕ) : Moves t s [] (s.refill t size) [] := by
  obtain ⟨hperm, hdepot, hcache, -⟩ := refillList_spec size refillBatch s.depot.list s.depot.n (s.cache t)
  refine (pools (m := (refillList size refillBatch s.depot.list s.depot.n (s.cache t)).2.2 ++ []) ?_
    (fun h => hcache (h.cache t)) fun h => hdepot h.depot).trans (.unmap _)
  rw [perm_iff_count]
  intro y
  have := hperm.count_eq y
  simp only [count_append, count_nil] at this ⊢
  omega

theorem flush (t : T) (keep : ℕ) : Moves t s [] (s.flush t keep cap) [] := by
  rw [State.flush]
  split
  next => exact refl t s []
  next h =>
    refine (pools (q := s.depot) (p := ⟨(s.cache t).list.take keep, keep⟩) (m := (s.cache t).list.drop keep) ?_ ?_
      fun h => h.depot).trans (flushList _ _)
    · rw [perm_iff_count]
      intro y
      have := congrArg (count y) (take_append_drop keep (s.cache t).list)
      simp only [count_append, count_nil] at this ⊢
      omega
    · intro hc
      have := hc.cache t
      simp only [Pool.Counted, length_take] at this ⊢
      omega

theorem release (t : T) (sample : Bool) : Moves t s [x] (s.release t x sample cap) [] := by
  have hpush : Moves t { s with live := s.live - 1 } [x]
      { s with live := s.live - 1, cache := update s.cache t ((s.cache t).push x) } [] := by
    refine pools (q := s.depot) ?_ (fun h => ?_) fun h => h.depot
    · rw [perm_iff_count]
      intro y
      simp only [Pool.push, count_append, count_cons, count_nil]
      omega
    · have := h.cache t
      simp only [Pool.Counted, Pool.push, length_cons] at this ⊢
      omega
  refine (fields (s.live - 1) s.warm s.slices).trans ?_
  simp only [State.release]
  split
  · exact unmap [x]
  · split
    · exact hpush.trans (flush t tlsKeep)
    · exact hpush

end Moves

/-! ## The partition -/

/-- What a step does: at most one stack is mapped, and then the stacks move. -/
def Steps (t : T) (s s' : State T) : Prop :=
  Moves t s [] s' [] ∨ ∃ size, Moves t (s.map size) [s.fresh size] s' []

theorem Moves.fresh (h : Moves t s hand s' hand') : s'.fresh size = s.fresh size := by
  rw [State.fresh, State.fresh, h.maps]

theorem Moves.map (h : Moves t s [] s' []) :
    Moves t (s.map size) [s.fresh size] (s'.map size) [s'.fresh size] := by
  have hm : s'.map size = { s' with maps := (s.map size).maps } := by
    rw [State.map, State.map, h.maps, h.fresh]
  rw [hm, h.fresh]
  exact h.frame _ [s.fresh size]

section

variable [DecidableEq T]

theorem steps_acquire (t : T) (size : ℕ) (mapped : Bool) : Steps t s (s.acquire t size mapped) := by
  have hlive : Moves t s [] { s with live := s.live + 1 } [] := .fields _ s.warm s.slices
  have hpop := hlive.trans (.popLocal t size)
  rw [State.acquire]
  split
  next x s₁ h₁ =>
    rw [h₁] at hpop
    exact .inl (hpop.trans .handOut)
  next s₁ h₁ =>
    rw [h₁] at hpop
    have hpop' := (hpop.trans (.refill t size)).trans (.popLocal t size)
    split
    next x s₂ h₂ =>
      rw [h₂] at hpop'
      exact .inl (hpop'.trans .handOut)
    next s₂ h₂ =>
      rw [h₂] at hpop'
      split
      · exact .inr ⟨size, hpop'.map.trans .handOut⟩
      · exact .inl hpop'

theorem steps_call {arena : Bool} {c : Call} (h : s.call arena t c = some s') : Steps t s s' := by
  cases c with
  | acquire size carve mapped =>
    simp only [State.call] at h
    split at h <;> cases h
    · exact .inl (.fields s.live s.warm _)
    · exact steps_acquire t size mapped
  | release x sample cap =>
    obtain ⟨hx, ⟨⟩⟩ := Option.ite_none_right_eq_some.mp h
    exact .inl ((Moves.takeBack hx).trans (.release t sample))
  | releaseSlice =>
    obtain ⟨-, ⟨⟩⟩ := Option.ite_none_right_eq_some.mp h
    exact .inl (.fields s.live s.warm _)
  | flush keep cap =>
    cases h
    exact .inl (.flush t keep)
  | warmup size mapped sample cap =>
    simp only [State.call] at h
    split at h <;> cases h
    · exact .inr ⟨size, .release t sample⟩
    · exact .inl (.refl t s [])
  | grow x size mapped =>
    obtain ⟨hx, h⟩ := Option.ite_none_right_eq_some.mp h
    split at h <;> cases h
    · exact .inr ⟨size, (((Moves.takeBack hx).frame _ [s.fresh size]).trans .handOut).trans (.unmap [x])⟩
    · exact .inl (.refl t s [])
  | growSlice size mapped =>
    obtain ⟨-, h⟩ := Option.ite_none_right_eq_some.mp h
    split at h <;> cases h
    · exact .inr ⟨size, (Moves.fields s.live s.warm _).trans .handOut⟩
    · exact .inl (.refl t s [])
  | prewarm size n cap =>
    cases h
    exact .inl (.fields s.live _ s.slices)

theorem steps_prewarm (t : T) (w : Warm) (mapped : Bool) : Steps t s (s.prewarm t w mapped) := by
  have hwarm : ∀ w', Moves t s [] { s with warm := w' } [] := fun w' => .fields s.live w' s.slices
  simp only [State.prewarm]
  split
  · split <;> exact .inl (hwarm _)
  · split
    · exact .inl (hwarm _)
    · refine .inr ⟨w.size, ?_⟩
      split
      next h => exact (Moves.depotPush (s := s.map w.size) h).trans (.fields s.live _ s.slices)
      next => exact (hwarm (update s.warm t none)).map.trans (.unmap [s.fresh w.size])

end

structure Inv (s : State T) : Prop where
  counts : Counts s
  nodup : ∀ t, (s.reach t).Nodup
  cross : ∀ t u, t ≠ u → Disjoint (s.cache t).list (s.cache u).list
  thread : s.out ++ s.depot.list ++ s.unmapped ≠ [] → Nonempty T
  mem : ∀ x, x ∈ s.maps ↔ ∃ t, x ∈ s.reach t
  fresh : ∀ x ∈ s.maps, x.id < s.maps.length
  ids : (s.maps.map Stack.id).Nodup

theorem Inv.init (h : Init s) : Inv s where
  counts := ⟨fun t => by simp [h.cache t, Pool.Counted], by simp [h.depot, Pool.Counted], by simp [h.pushes]⟩
  nodup t := by simp [State.reach, h.out, h.depot, h.unmapped, h.cache t]
  cross t u _ := by simp [h.cache t]
  thread := by simp [h.out, h.depot, h.unmapped]
  mem x := by simp [State.reach, h.maps, h.out, h.depot, h.unmapped, h.cache]
  fresh := by simp [h.maps]
  ids := by simp [h.maps]

theorem State.reach_sublist (s : State T) (t : T) : (s.cache t).list ⊆ s.reach t :=
  fun _ hx => mem_append_right _ hx

theorem Inv.notMem_reach (hI : Inv s) {u : T} (hu : u ≠ t) (hx : x ∈ (s.cache u).list) : x ∉ s.reach t := by
  intro ht
  rcases mem_append.mp ht with h | h
  · exact (nodup_append.mp (hI.nodup u)).2.2 x h x hx rfl
  · exact hI.cross u t hu hx h

theorem Inv.moves (hI : Inv s) (hand : List Stack) (hm : (hand ++ s.reach t).Nodup)
    (hh : ∀ u, ∀ x ∈ hand, x ∉ (s.cache u).list)
    (hmem : ∀ x, x ∈ s'.maps ↔ x ∈ hand ∨ ∃ u, x ∈ s.reach u) (hfresh : ∀ x ∈ s'.maps, x.id < s'.maps.length)
    (hids : (s'.maps.map Stack.id).Nodup) (h : (s'.reach t).Perm (hand ++ s.reach t))
    (hothers : ∀ u, u ≠ t → s'.cache u = s.cache u) (hcounts : Counts s') : Inv s' := by
  have hnd : (s'.reach t).Nodup := h.nodup_iff.mpr hm
  -- whatever `t` can reach now is not in another cache
  have haway : ∀ u, u ≠ t → ∀ x ∈ s'.reach t, x ∉ (s.cache u).list := by
    intro u hu x hx hxu
    rcases mem_append.mp (h.mem_iff.mp hx) with hx | hx
    · exact hh u x hx hxu
    · exact hI.notMem_reach hu hxu hx
  refine ⟨hcounts, fun u => ?_, fun u v huv => ?_, fun _ => ⟨t⟩, fun x => ?_, hfresh, hids⟩
  · by_cases hu : u = t
    · rwa [hu]
    · have hrest := (nodup_append.mp hnd).1
      have hcache := (nodup_append.mp (hI.nodup u)).2.1
      refine nodup_append.mpr ⟨hrest, hothers u hu ▸ hcache, fun x hx y hy hxy => ?_⟩
      subst hxy
      exact haway u hu x (mem_append_left _ hx) (hothers u hu ▸ hy)
  · intro x hxu hxv
    by_cases hu : u = t
    · subst hu
      exact haway v huv.symm x (s'.reach_sublist u hxu) (hothers v huv.symm ▸ hxv)
    · by_cases hv : v = t
      · subst hv
        exact haway u hu x (s'.reach_sublist v hxv) (hothers u hu ▸ hxu)
      · exact hI.cross u v huv (hothers u hu ▸ hxu) (hothers v hv ▸ hxv)
  · rw [hmem]
    constructor
    · rintro (hx | ⟨u, hx⟩)
      · exact ⟨t, h.mem_iff.mpr (mem_append_left _ hx)⟩
      · rcases mem_append.mp hx with hx | hx
        · exact ⟨t, h.mem_iff.mpr (mem_append_right _ (mem_append_left _ hx))⟩
        · by_cases hu : u = t
          · subst hu
            exact ⟨u, h.mem_iff.mpr (mem_append_right _ (s.reach_sublist u hx))⟩
          · exact ⟨u, s'.reach_sublist u (hothers u hu ▸ hx)⟩
    · rintro ⟨u, hx⟩
      by_cases hu : u = t
      · exact (mem_append.mp (h.mem_iff.mp (hu ▸ hx))).imp id fun hx => ⟨t, hx⟩
      · rcases mem_append.mp hx with hx | hx
        · exact (mem_append.mp (h.mem_iff.mp (mem_append_left _ hx))).imp id fun hx => ⟨t, hx⟩
        · exact .inr ⟨u, s.reach_sublist u (hothers u hu ▸ hx)⟩

theorem Inv.fresh_notMem (hI : Inv s) (u : T) : s.fresh size ∉ s.reach u := by
  intro h
  exact absurd (hI.fresh _ ((hI.mem _).mpr ⟨u, h⟩)) (Nat.lt_irrefl _)

theorem Inv.next (hI : Inv s) (h : Steps t s s') : Inv s' := by
  rcases h with h | ⟨size, h⟩
  · refine hI.moves (t := t) [] (hI.nodup t) nofun ?_ ?_ ?_ h.perm h.others (h.counts hI.counts)
    all_goals rw [h.maps]
    · simpa using hI.mem
    · exact hI.fresh
    · exact hI.ids
  · refine hI.moves (t := t) [s.fresh size] ?_ ?_ ?_ ?_ ?_ h.perm h.others
      (h.counts ⟨hI.counts.cache, hI.counts.depot, hI.counts.pushes⟩)
    · exact nodup_cons.mpr ⟨hI.fresh_notMem t, hI.nodup t⟩
    · intro u x hx
      obtain rfl := mem_singleton.mp hx
      exact fun h => hI.fresh_notMem u (s.reach_sublist u h)
    all_goals rw [h.maps, State.map]
    · intro x
      rw [mem_cons, mem_singleton, hI.mem]
    · refine forall_mem_cons.mpr ⟨Nat.lt_succ_self _, fun x hx => Nat.lt_succ_of_lt (hI.fresh x hx)⟩
    · refine nodup_cons.mpr ⟨fun hm => ?_, hI.ids⟩
      obtain ⟨x, hx, hid⟩ := mem_map.mp hm
      exact Nat.ne_of_lt (hI.fresh x hx) hid

/-! ## Places -/

/-- Where a stack that is mapped can be. -/
inductive Place (T : Type*) where
  | out
  | cache (t : T)
  | depot

def State.stacks (s : State T) : Place T → List Stack
  | .out => s.out
  | .cache t => (s.cache t).list
  | .depot => s.depot.list

/-- All but the caches are in the reach of any thread, and there is one. -/
theorem Inv.reached (hI : Inv s) : x ∈ s.unmapped ∨ (∃ p, x ∈ s.stacks p) ↔ ∃ t, x ∈ s.reach t := by
  simp only [State.reach, mem_append]
  constructor
  · have ht : x ∈ s.out ++ s.depot.list ++ s.unmapped → ∃ _ : T, True := fun hx =>
      (hI.thread (ne_nil_of_mem hx)).elim fun t => ⟨t, trivial⟩
    simp only [mem_append] at ht
    rintro (hx | ⟨_ | t | _, hx⟩)
    · exact (ht (.inr hx)).imp fun _ _ => .inl (.inr hx)
    · exact (ht (.inl (.inl hx))).imp fun _ _ => .inl (.inl (.inl hx))
    · exact ⟨t, .inr hx⟩
    · exact (ht (.inl (.inr hx))).imp fun _ _ => .inl (.inl (.inr hx))
  · rintro ⟨t, ((hx | hx) | hx) | hx⟩
    · exact .inr ⟨.out, hx⟩
    · exact .inr ⟨.depot, hx⟩
    · exact .inl hx
    · exact .inr ⟨.cache t, hx⟩

theorem Inv.mem_maps (hI : Inv s) : x ∈ s.maps ↔ x ∈ s.unmapped ∨ ∃ p, x ∈ s.stacks p := by
  rw [hI.mem, hI.reached]

theorem Inv.single (hI : Inv s) {p : Place T} (hp : x ∈ s.stacks p) :
    (s.stacks p).count x = 1 ∧ x ∉ s.unmapped ∧ ∀ q, q ≠ p → x ∉ s.stacks q := by
  have hcount : ∀ t, s.out.count x + s.depot.list.count x + s.unmapped.count x + (s.cache t).list.count x ≤ 1 := by
    intro t
    simpa only [State.reach, count_append] using nodup_iff_count_le_one.mp (hI.nodup t) x
  obtain ⟨t₀, -⟩ := hI.reached.mp (.inr ⟨p, hp⟩)
  have h₀ := hcount t₀
  have hpos := count_pos_iff.mpr hp
  simp only [← count_eq_zero]
  obtain _ | t | _ := p
  case cache =>
    have := hcount t
    simp only [State.stacks] at hpos ⊢
    refine ⟨by omega, by omega, ?_⟩
    rintro (_ | u | _) hq
    · show s.out.count x = 0
      omega
    · exact count_eq_zero.mpr fun hu => hI.cross t u (fun h => hq (h ▸ rfl)) hp hu
    · show s.depot.list.count x = 0
      omega
  all_goals
    simp only [State.stacks] at hpos ⊢
    refine ⟨by omega, by omega, ?_⟩
    rintro (_ | u | _) hq
    case cache =>
      have := hcount u
      show (s.cache u).list.count x = 0
      omega
    all_goals first | exact absurd rfl hq | (simp only; omega)

theorem Inv.unmapped_nodup (hI : Inv s) : s.unmapped.Nodup := by
  by_contra h
  obtain ⟨t⟩ := hI.thread fun he => h (by simp only [append_eq_nil_iff] at he; simp [he.2])
  exact h (nodup_append.mp (nodup_append.mp (hI.nodup t)).1).2.1

/-! ## What an acquire hands out -/

variable [DecidableEq T]

theorem acquire_spec (s : State T) (t : T) (size : ℕ) (mapped : Bool) :
    (s.acquire t size mapped).live = s.live + 1 ∧
      ((∃ x, x.size = size ∧ (s.acquire t size mapped).out = x :: s.out) ∨
        (s.acquire t size mapped).out = s.out ∧ mapped = false ∧
          (∀ x ∈ (s.cache t).list, x.size ≠ size) ∧ ∀ x ∈ s.depot.list, x.size ≠ size) := by
  rw [State.acquire]
  obtain ⟨-, -, hsize, hnone⟩ := popList_spec size (s.cache t).list (s.cache t).n
  split
  next x s₁ h₁ =>
    obtain ⟨hx, rfl⟩ := Prod.ext_iff.mp h₁
    exact ⟨rfl, .inl ⟨x, hsize x hx, rfl⟩⟩
  next s₁ h₁ =>
    obtain ⟨hx, rfl⟩ := Prod.ext_iff.mp h₁
    obtain ⟨-, hcache⟩ := hnone hx
    generalize hs₁ : ({ s with live := s.live + 1 }.popLocal t size).2 = s₁
    have hdepot : s₁.depot = s.depot := hs₁ ▸ rfl
    have hlive : s₁.live = s.live + 1 := hs₁ ▸ rfl
    have hout : s₁.out = s.out := hs₁ ▸ rfl
    obtain ⟨-, -, -, -, hmoved⟩ := refillList_spec size refillBatch s₁.depot.list s₁.depot.n (s₁.cache t)
    obtain ⟨-, -, hsize', hnone'⟩ := popList_spec size ((s₁.refill t size).cache t).list ((s₁.refill t size).cache t).n
    split
    next x s₂ h₂ =>
      obtain ⟨hx, rfl⟩ := Prod.ext_iff.mp h₂
      exact ⟨hlive, .inl ⟨x, hsize' x hx, congrArg (x :: ·) hout⟩⟩
    next s₂ h₂ =>
      obtain ⟨hx', rfl⟩ := Prod.ext_iff.mp h₂
      cases mapped with
      | true => exact ⟨hlive, .inl ⟨_, rfl, congrArg (_ :: ·) hout⟩⟩
      | false =>
        refine ⟨hlive, .inr ⟨hout, rfl, hcache, fun x hx hxs => ?_⟩⟩
        -- a stack of the size in the depot would have been moved to the cache
        obtain ⟨y, hy, hys⟩ := hmoved (by decide) ⟨x, hdepot ▸ hx, hxs⟩
        refine (hnone' hx').2 y ?_ hys
        rw [State.refill]
        simpa [State.unmap] using hy

theorem Inv.step {arena : Bool} {a : Action T} (hI : Inv s) (h : step arena s a = some s') : Inv s' := by
  cases a with
  | call t c =>
    obtain ⟨-, h⟩ := Option.ite_none_right_eq_some.mp h
    exact hI.next (steps_call h)
  | prewarm t mapped =>
    obtain ⟨w, -, rfl⟩ := Option.map_eq_some_iff.mp h
    exact hI.next (steps_prewarm t w mapped)

/-- The counters are the lengths of the lists, the depot stays within its cap, and an acquire hands out a stack of
its size that is on no list. -/
theorem stack_pool_partition {arena : Bool} (h : (stackPool T arena).Reachable s) : (s.maps.map Stack.id).Nodup ∧
      (∀ x ∈ s.maps, x ∉ s.unmapped → ∃ p, (s.stacks p).count x = 1 ∧ ∀ q, q ≠ p → x ∉ s.stacks q) ∧
      (∀ p, ∀ x ∈ s.stacks p, x ∈ s.maps ∧ x ∉ s.unmapped) ∧
      s.unmapped.Nodup ∧ s.unmapped ⊆ s.maps ∧
      (∀ t, (s.cache t).n = (s.cache t).list.length) ∧ s.depot.n = s.depot.list.length ∧
      (∀ e ∈ s.pushes, (e.1 : ℤ) < e.2) ∧
      ∀ t size carve mapped s', step arena s (.call t (.acquire size carve mapped)) = some s' →
        s'.out = s.out ∨ ∃ x ∈ s'.maps, x.size = size ∧ s'.out = x :: s.out ∧ x ∉ s.out ∧
          ∀ p, p ≠ .out → x ∉ s'.stacks p := by
  have hI : Inv s := h.invariant (P := Inv) (fun _ => Inv.init) fun _ _ _ hI _ hs => hI.step hs
  refine ⟨hI.ids, ?_, ?_, hI.unmapped_nodup, fun x hx => hI.mem_maps.mpr (.inl hx), hI.counts.cache, hI.counts.depot,
    hI.counts.pushes, ?_⟩
  · intro x hx hun
    obtain ⟨p, hp⟩ := (hI.mem_maps.mp hx).resolve_left hun
    exact ⟨p, (hI.single hp).1, (hI.single hp).2.2⟩
  · exact fun p x hx => ⟨hI.mem_maps.mpr (.inr ⟨p, hx⟩), (hI.single hx).2.1⟩
  · intro t size carve mapped s' hs
    have hI' : Inv s' := hI.step hs
    obtain ⟨-, hs⟩ := Option.ite_none_right_eq_some.mp hs
    simp only [State.call] at hs
    split at hs <;> cases hs
    · exact .inl rfl
    · rcases (acquire_spec s t size mapped).2 with ⟨x, hsize, hout⟩ | ⟨hout, -⟩
      · have hx : x ∈ (s.acquire t size mapped).out := hout ▸ mem_cons_self
        obtain ⟨hone, -, hno⟩ := hI'.single (p := .out) hx
        refine .inr ⟨x, hI'.mem_maps.mpr (.inr ⟨.out, hx⟩), hsize, hout, ?_, hno⟩
        rw [State.stacks, hout, count_cons_self] at hone
        exact count_eq_zero.mp (Nat.succ.inj hone)
      · exact .inl hout

def empty : State Bool where
  cache _ := ⟨[], 0⟩
  depot := ⟨[], 0⟩
  live := 0
  warm _ := none
  out := []
  slices := 0
  maps := []
  unmapped := []
  pushes := []

theorem init_empty : Init empty :=
  ⟨fun _ => rfl, rfl, rfl, fun _ => rfl, rfl, rfl, rfl, rfl, rfl⟩

/-- A prewarmed stack of another size is dropped by the acquire that finds it. -/
theorem stack_pool_partition_mismatch :
    ∃ s : State Bool, (stackPool Bool false).Reachable s ∧ s.unmapped = [⟨0, 4096⟩] ∧ s.out = [⟨1, 8192⟩] ∧
      s.unmapped.Nodup ∧ s.depot.n = s.depot.list.length := by
  obtain ⟨s, hr, hp⟩ := (stackPool Bool false).reaches (fun s => s.unmapped = [⟨0, 4096⟩] ∧ s.out = [⟨1, 8192⟩])
    [.call true (.prewarm 4096 1 1024), .prewarm true true, .prewarm true true,
      .call false (.acquire 8192 false true)] init_empty (by decide +kernel)
  obtain ⟨-, -, -, hnodup, -, -, hdepot, -⟩ := stack_pool_partition hr
  exact ⟨s, hr, hp.1, hp.2, hnodup, hdepot⟩

end Runloom.StackPool
