import Mathlib.Data.List.Nodup
import Mathlib.Data.List.Perm.Subperm
import Runloom.Slab.Lists

/-!
# Each struct has one place

`Books s l home` says that the lists of the slabs and of the pool are those of `l`, and that `home` is where each
struct is.  The pool and the slabs are treated alike: `none` stands for the pool and `some t` for the slab of thread
`t`, and the refill and the two flushes are all the same move of the first part of a list to the front of another.
-/

namespace Runloom.Slab

open Transition Linked List

/-- Where a live struct is. -/
inductive Place (T : Type*) where
  | inUse
  | list (i : Option T)

variable {T : Type*}

namespace State

def head (s : State T) : Option T → ℕ
  | none => s.globalSlab
  | some t => s.slab t

def size (s : State T) : Option T → ℤ
  | none => s.globalSize
  | some t => s.slabSize t

end State

/-- Each struct is where `home` says, in a list of `l`, in use or nowhere. -/
structure Homes (l : Option T → List ℕ) (inUse live : List ℕ) (home : ℕ → Option (Place T)) : Prop where
  nodup (i : Option T) : (l i).Nodup
  inUseNodup : inUse.Nodup
  liveNodup : live.Nodup
  mem_list (i : Option T) (g : ℕ) : g ∈ l i ↔ home g = some (.list i)
  mem_inUse (g : ℕ) : g ∈ inUse ↔ home g = some .inUse
  mem_live (g : ℕ) : g ∈ live ↔ home g ≠ none
  null : home 0 = none

structure Books (s : State T) (l : Option T → List ℕ) (home : ℕ → Option (Place T)) : Prop where
  chain (i : Option T) : Chain s.mem (s.head i) (l i)
  size (i : Option T) : s.size i = (l i).length
  homes : Homes l s.inUse s.live home

variable {s s' : State T} {l : Option T → List ℕ} {inUse live : List ℕ} {home : ℕ → Option (Place T)}
  {i j : Option T} {g x n : ℕ}

theorem Books.of_init (h : Init s) : Books s (fun _ => []) fun _ => none where
  chain i := by
    cases i with
    | none => exact (show s.head none = 0 from h.globalSlab) ▸ Chain.nil s.mem
    | some t => exact (show s.head (some t) = 0 from h.slab t) ▸ Chain.nil s.mem
  size i := by
    cases i with
    | none => exact h.globalSize
    | some t => exact h.slabSize t
  homes := by
    rw [h.inUse, h.live]
    exact ⟨fun _ => nodup_nil, nodup_nil, nodup_nil, by simp, by simp, by simp, rfl⟩

/-! ## Homes -/

namespace Homes

variable (hH : Homes l inUse live home)
include hH

theorem notMem_list_of_mem (h : g ∈ l i) (hij : i ≠ j) : g ∉ l j := by
  rw [hH.mem_list] at h ⊢
  rw [h]
  simpa using hij

theorem notMem_list_of_inUse (h : g ∈ inUse) (i : Option T) : g ∉ l i := by
  rw [hH.mem_inUse] at h
  rw [hH.mem_list, h]
  simp

theorem ne_zero_of_mem (h : g ∈ live) : g ≠ 0 := by
  rintro rfl
  rw [hH.mem_live] at h
  exact h hH.null

theorem mem_live_of_list (h : g ∈ l i) : g ∈ live := by
  rw [hH.mem_live, (hH.mem_list i g).mp h]
  simp

theorem mem_live_of_inUse (h : g ∈ inUse) : g ∈ live := by
  rw [hH.mem_live, (hH.mem_inUse g).mp h]
  simp

theorem length_le (i : Option T) : (l i).length ≤ live.length :=
  (List.Nodup.subperm (hH.nodup i) fun _ => hH.mem_live_of_list).length_le

variable [DecidableEq T]

theorem move {b r : List ℕ} (hij : i ≠ j) (hl : l i = b ++ r) :
    Homes (fun k => if k = j then b ++ l j else if k = i then r else l k) inUse live
      fun g => if g ∈ b then some (.list j) else home g := by
  obtain ⟨hndb, hndr, hdis⟩ := nodup_append.mp (hl ▸ hH.nodup i)
  have hbi : ∀ g, g ∈ b → g ∈ l i := fun g hg => by
    rw [hl]
    exact mem_append_left r hg
  constructor
  case nodup =>
    intro k
    split_ifs
    · refine nodup_append.mpr ⟨hndb, hH.nodup j, fun g hg g' hg' heq => ?_⟩
      subst heq
      exact hH.notMem_list_of_mem (hbi g hg) hij hg'
    · exact hndr
    · exact hH.nodup k
  case inUseNodup => exact hH.inUseNodup
  case liveNodup => exact hH.liveNodup
  case mem_list =>
    intro k g
    by_cases hg : g ∈ b
    · rw [if_pos hg]
      split_ifs with hkj hki
      · subst hkj
        simp only [mem_append_left (l k) hg]
      · have hr : g ∉ r := fun h => hdis g hg g h rfl
        simp [hr, Ne.symm hkj]
      · simp [hH.notMem_list_of_mem (hbi g hg) (Ne.symm hki), Ne.symm hkj]
    · rw [if_neg hg, ← hH.mem_list]
      split_ifs with hkj hki
      · subst hkj
        rw [mem_append]
        exact or_iff_right hg
      · subst hki
        rw [hl, mem_append]
        exact (or_iff_right hg).symm
      · rfl
  case mem_inUse =>
    intro g
    split_ifs with hg
    · simp only [Option.some.injEq, reduceCtorEq, iff_false]
      exact fun h => hH.notMem_list_of_inUse h i (hbi g hg)
    · exact hH.mem_inUse g
  case mem_live =>
    intro g
    split_ifs with hg
    · simp [hH.mem_live_of_list (hbi g hg)]
    · exact hH.mem_live g
  case null =>
    show (if 0 ∈ b then _ else home 0) = none
    rw [if_neg fun h => hH.ne_zero_of_mem (hH.mem_live_of_list (hbi 0 h)) rfl]
    exact hH.null

theorem take {r : List ℕ} (hl : l i = g :: r) :
    Homes (update l i r) (g :: inUse) live (update home g (some .inUse)) := by
  have hg : g ∈ l i := by
    rw [hl]
    exact mem_cons_self
  obtain ⟨hgr, hnd⟩ := nodup_cons.mp (hl ▸ hH.nodup i)
  constructor
  case nodup =>
    intro k
    by_cases hk : k = i
    · subst hk
      rwa [update_self]
    · rw [update_of_ne hk]
      exact hH.nodup k
  case inUseNodup => exact nodup_cons.mpr ⟨fun h => hH.notMem_list_of_inUse h i hg, hH.inUseNodup⟩
  case liveNodup => exact hH.liveNodup
  case mem_list =>
    intro k z
    by_cases hz : z = g
    · subst hz
      rw [update_self]
      simp only [Option.some.injEq, reduceCtorEq, iff_false]
      by_cases hk : k = i
      · subst hk
        rwa [update_self]
      · rw [update_of_ne hk]
        exact hH.notMem_list_of_mem hg (Ne.symm hk)
    · rw [update_of_ne hz, ← hH.mem_list]
      by_cases hk : k = i
      · subst hk
        rw [update_self, hl, mem_cons]
        exact (or_iff_right hz).symm
      · rw [update_of_ne hk]
  case mem_inUse =>
    intro z
    by_cases hz : z = g
    · subst hz
      simp
    · rw [update_of_ne hz, ← hH.mem_inUse, mem_cons]
      exact or_iff_right hz
  case mem_live =>
    intro z
    by_cases hz : z = g
    · subst hz
      simp [hH.mem_live_of_list hg]
    · rw [update_of_ne hz]
      exact hH.mem_live z
  case null => rw [update_of_ne (hH.ne_zero_of_mem (hH.mem_live_of_list hg)).symm, hH.null]

theorem put (i : Option T) (hg : g ∈ inUse) :
    Homes (update l i (g :: l i)) (inUse.erase g) live (update home g (some (.list i))) := by
  have hnot : ∀ k, g ∉ l k := hH.notMem_list_of_inUse hg
  constructor
  case nodup =>
    intro k
    by_cases hk : k = i
    · subst hk
      rw [update_self]
      exact nodup_cons.mpr ⟨hnot _, hH.nodup _⟩
    · rw [update_of_ne hk]
      exact hH.nodup k
  case inUseNodup => exact hH.inUseNodup.erase g
  case liveNodup => exact hH.liveNodup
  case mem_list =>
    intro k z
    by_cases hz : z = g
    · subst hz
      rw [update_self]
      by_cases hk : k = i
      · subst hk
        simp
      · rw [update_of_ne hk]
        simp only [hnot k, false_iff, Option.some.injEq, Place.list.injEq]
        exact Ne.symm hk
    · rw [update_of_ne hz, ← hH.mem_list]
      by_cases hk : k = i
      · subst hk
        rw [update_self, mem_cons]
        exact or_iff_right hz
      · rw [update_of_ne hk]
  case mem_inUse =>
    intro z
    rw [hH.inUseNodup.mem_erase_iff]
    by_cases hz : z = g
    · subst hz
      simp
    · rw [update_of_ne hz, hH.mem_inUse]
      exact and_iff_right hz
  case mem_live =>
    intro z
    by_cases hz : z = g
    · subst hz
      simp [hH.mem_live_of_inUse hg]
    · rw [update_of_ne hz]
      exact hH.mem_live z
  case null => rw [update_of_ne (hH.ne_zero_of_mem (hH.mem_live_of_inUse hg)).symm, hH.null]

theorem drop (i : Option T) :
    Homes (update l i []) inUse (live.diff (l i)) fun g => if g ∈ l i then none else home g := by
  have hother : ∀ {p : Place T}, p ≠ .list i → ∀ z, ((if z ∈ l i then none else home z) = some p ↔
      home z = some p) := by
    intro p hp z
    split_ifs with hz
    · rw [(hH.mem_list i z).mp hz]
      simpa using hp.symm
    · rfl
  constructor
  case nodup =>
    intro k
    by_cases hk : k = i
    · subst hk
      rw [update_self]
      exact nodup_nil
    · rw [update_of_ne hk]
      exact hH.nodup k
  case inUseNodup => exact hH.inUseNodup
  case liveNodup => exact List.Nodup.diff hH.liveNodup
  case mem_list =>
    intro k z
    by_cases hk : k = i
    · subst hk
      rw [update_self]
      split_ifs with hz
      · simp
      · rw [← hH.mem_list]
        simpa using hz
    · rw [update_of_ne hk, hother (by simpa using hk), hH.mem_list]
  case mem_inUse =>
    intro z
    rw [hother (by simp)]
    exact hH.mem_inUse z
  case mem_live =>
    intro z
    rw [List.Nodup.mem_sdiff_iff hH.liveNodup, hH.mem_live]
    split_ifs with hz <;> simp [hz]
  case null =>
    show (if 0 ∈ l i then none else home 0) = none
    rw [hH.null, ite_self]

omit [DecidableEq T] in
theorem fresh (hne : g ≠ 0) (hg : g ∉ live) : Homes l (g :: inUse) (g :: live) (update home g (some .inUse)) := by
  constructor
  case nodup => exact hH.nodup
  case inUseNodup => exact nodup_cons.mpr ⟨fun h => hg (hH.mem_live_of_inUse h), hH.inUseNodup⟩
  case liveNodup => exact nodup_cons.mpr ⟨hg, hH.liveNodup⟩
  case mem_list =>
    intro k z
    by_cases hz : z = g
    · subst hz
      simpa using fun h => hg (hH.mem_live_of_list h)
    · rw [update_of_ne hz, hH.mem_list]
  case mem_inUse =>
    intro z
    by_cases hz : z = g
    · subst hz
      simp
    · rw [update_of_ne hz, ← hH.mem_inUse, mem_cons]
      exact or_iff_right hz
  case mem_live =>
    intro z
    by_cases hz : z = g
    · subst hz
      simp
    · rw [update_of_ne hz, ← hH.mem_live, mem_cons]
      exact or_iff_right hz
  case null => rw [update_of_ne hne.symm, hH.null]

end Homes

/-! ## Moves between lists -/

section Move

variable [DecidableEq T]

/-- The first `n` structs of the list `i`, up to `x`, are put in front of the list `j`. -/
structure Moved (s s' : State T) (i j : Option T) (x n : ℕ) : Prop where
  mem : s'.mem = setField s.mem x .next (s.head j)
  head (k : Option T) : s'.head k = if k = j then s.head i else if k = i then s.mem x .next else s.head k
  size (k : Option T) : s'.size k = if k = j then s.size j + n else if k = i then s.size i - n else s.size k
  live : s'.live = s.live
  inUse : s'.inUse = s.inUse

theorem Books.move {b r : List ℕ} (hB : Books s l home) (hij : i ≠ j) (hl : l i = b ++ [x] ++ r)
    (hm : Moved s s' i j x (b ++ [x]).length) :
    Books s' (fun k => if k = j then b ++ [x] ++ l j else if k = i then r else l k)
      fun g => if g ∈ b ++ [x] then some (.list j) else home g := by
  obtain ⟨hndb, -, hdis⟩ := nodup_append.mp (hl ▸ hB.homes.nodup i)
  have hxb : x ∉ b := fun hx => (nodup_append.mp hndb).2.2 x hx x mem_cons_self rfl
  have hxi : x ∈ l i := by simp [hl]
  have hspells := (hB.chain i).spells
  rw [hl] at hspells
  -- the write changes the link of `x` only, which is in no other list
  have hlink : ∀ z, z ≠ x → s'.mem z .next = s.mem z .next := fun z hz => by rw [hm.mem, setField_of_ne hz]
  constructor
  case chain =>
    intro k
    rw [hm.head k]
    split_ifs with hkj hki
    · refine ⟨?_, ?_⟩
      · rw [(hB.chain i).head, hl]
        cases b <;> rfl
      · rw [hm.mem, nextOf_setField_next, (hB.chain j).head, append_assoc]
        rw [append_assoc] at hspells
        exact hspells.splice (hB.chain j).spells hxb (hB.homes.notMem_list_of_mem hxi hij)
    · rw [append_assoc] at hspells
      refine Chain.congr ⟨hspells.of_append.1, hspells.of_append.2⟩ fun z hz => hlink z ?_
      rintro rfl
      exact hdis z (mem_append_right b mem_cons_self) z hz rfl
    · refine (hB.chain k).congr fun z hz => hlink z ?_
      rintro rfl
      exact hB.homes.notMem_list_of_mem hxi (Ne.symm hki) hz
  case size =>
    intro k
    rw [hm.size k]
    split_ifs
    · simp only [hB.size, length_append]
      omega
    · simp only [hB.size, hl, length_append]
      omega
    · exact hB.size k
  case homes =>
    rw [hm.inUse, hm.live]
    exact hB.homes.move hij hl

theorem globalRefill_eq (batch : ℕ) (t : T) (h : s.globalSlab ≠ 0) : (s.globalRefill batch t).1 = s.globalSlab ∧
      Moved s (s.globalRefill batch t).2 none (some t) (batchEnd s.mem (batch - 1) s.globalSlab 1).1
        (batchEnd s.mem (batch - 1) s.globalSlab 1).2 := by
  rw [State.globalRefill, if_neg h]
  refine ⟨rfl, rfl, fun k => ?_, fun k => ?_, rfl, rfl⟩
  · cases k with
    | none => rfl
    | some u => simp [State.head, update_apply]
  · cases k with
    | none => rfl
    | some u => simp [State.size, update_apply]

theorem globalFlush_eq (batch : ℕ) (t : T) (h : s.slab t ≠ 0) :
    Moved s (s.globalFlush batch t) (some t) none (batchEnd s.mem (batch - 1) (s.slab t) 1).1
      (batchEnd s.mem (batch - 1) (s.slab t) 1).2 := by
  simp only [State.globalFlush, if_neg h]
  refine ⟨rfl, fun k => ?_, fun k => ?_, rfl, rfl⟩
  · cases k with
    | none => rfl
    | some u => simp [State.head, update_apply]
  · cases k with
    | none => rfl
    | some u => simp [State.size, update_apply]

omit [DecidableEq T] in
theorem Books.batch (hB : Books s l home) (h : s.head i ≠ 0) (k : ℕ) :
    ∃ b x r, l i = b ++ [x] ++ r ∧ batchEnd s.mem k (s.head i) 1 = (x, (b ++ [x]).length) := by
  obtain ⟨r, hl, -⟩ := (hB.chain i).exists_cons h
  have hspells := (hB.chain i).spells
  rw [hl] at hspells
  obtain ⟨b, x, r', hsplit, hend⟩ := batchEnd_spec (n := 1) k hspells
  refine ⟨b, x, r', ?_, ?_⟩
  · rw [hl, hsplit, append_assoc]
    rfl
  · rw [hend, length_append, Nat.add_comm]
    rfl

def Inv (s : State T) : Prop := ∃ l home, Books s l home

theorem Inv.refill (hI : Inv s) (batch : ℕ) (t : T) (h : s.globalSlab ≠ 0) : Inv (s.globalRefill batch t).2 := by
  obtain ⟨l, home, hB⟩ := hI
  obtain ⟨-, hm⟩ := globalRefill_eq batch t h
  obtain ⟨b, x, r, hl, hend⟩ := hB.batch (i := none) h (batch - 1)
  rw [show batchEnd s.mem (batch - 1) s.globalSlab 1 = _ from hend] at hm
  exact ⟨_, _, hB.move (Option.some_ne_none t).symm hl hm⟩

theorem Inv.flush (hI : Inv s) (batch : ℕ) (t : T) : Inv (s.globalFlush batch t) := by
  by_cases h : s.slab t = 0
  · rw [State.globalFlush, if_pos h]
    exact hI
  · obtain ⟨l, home, hB⟩ := hI
    have hm := globalFlush_eq batch t h
    obtain ⟨b, x, r, hl, hend⟩ := hB.batch (i := some t) h (batch - 1)
    rw [show batchEnd s.mem (batch - 1) (s.slab t) 1 = _ from hend] at hm
    exact ⟨_, _, hB.move (Option.some_ne_none t) hl hm⟩

theorem Inv.threadFlush (hI : Inv s) (t : T) : ∃ s', s.threadFlush t = some s' ∧ Inv s' := by
  by_cases h : s.slab t = 0
  · exact ⟨s, by rw [State.threadFlush, if_pos h], hI⟩
  · obtain ⟨l, home, hB⟩ := hI
    obtain ⟨r, hl, -⟩ := (hB.chain (some t)).exists_cons h
    have hspells := (hB.chain (some t)).spells
    have hlen := hB.homes.length_le (some t)
    rw [hl] at hspells hlen
    have hfuel : r.length ≤ s.live.length := by
      rw [length_cons] at hlen
      omega
    obtain ⟨b, x, hsplit, hend⟩ := listEnd_spec (n := 1) hspells hfuel
    have hbx : l (some t) = b ++ [x] ++ [] := by rw [hl, hsplit, append_nil]
    have hlast : s.mem x .next = 0 := by
      rw [hsplit] at hspells
      exact ptr_eq_none.mp hspells.of_append.1
    refine ⟨_, by rw [State.threadFlush, if_neg h, show listEnd _ _ (s.slab t) 1 = _ from hend], ?_⟩
    refine ⟨_, _, hB.move (Option.some_ne_none t) hbx ⟨rfl, fun k => ?_, fun k => ?_, rfl, rfl⟩⟩
    · cases k with
      | none => rfl
      | some u => simp [State.head, update_apply, hlast]
    · cases k with
      | none =>
        simp [State.size]
        omega
      | some u =>
        have hsize : s.slabSize t = ((b ++ [x]).length : ℤ) := by
          have := hB.size (some t)
          rwa [hbx, append_nil] at this
        simp [State.size, update_apply, hsize]

end Move

/-! ## Structs in use -/

section InUse

variable [DecidableEq T]

theorem head_update (s : State T) (t : T) (v : ℕ) :
    ({ s with slab := update s.slab t v } : State T).head = update s.head (some t) v := by
  funext k
  cases k with
  | none => rfl
  | some u => simp [State.head, update_apply]

theorem size_update (s : State T) (t : T) (n : ℤ) :
    ({ s with slabSize := update s.slabSize t n } : State T).size = update s.size (some t) n := by
  funext k
  cases k with
  | none => rfl
  | some u => simp [State.size, update_apply]

section

variable (hB : Books s l home)
include hB

theorem Books.reuse {t : T} {r : List ℕ} (hl : l (some t) = g :: r) :
    Books (s.reuse t g) (update l (some t) r) (update home g (some .inUse)) := by
  have hg : g ∈ l (some t) := by
    rw [hl]
    exact mem_cons_self
  have hgr : g ∉ r := (nodup_cons.mp (hl ▸ hB.homes.nodup (some t))).1
  have hspells := (hB.chain (some t)).spells
  rw [hl] at hspells
  have hscrub : ∀ z, z ≠ g → State.scrub s.mem g z .next = s.mem z .next := fun z hz => by rw [scrub_of_ne hz]
  constructor
  case chain =>
    intro k
    rw [show (s.reuse t g).head k = _ from congrFun (head_update s t (s.mem g .next)) k]
    by_cases hk : k = some t
    · subst hk
      rw [update_self, update_self]
      exact Chain.congr ⟨hspells.1, hspells.2⟩ fun z hz => hscrub z fun h => hgr (h ▸ hz)
    · rw [update_of_ne hk, update_of_ne hk]
      exact (hB.chain k).congr fun z hz => hscrub z fun h => hB.homes.notMem_list_of_mem hg (Ne.symm hk) (h ▸ hz)
  case size =>
    intro k
    rw [show (s.reuse t g).size k = _ from congrFun (size_update s t (s.slabSize t - 1)) k]
    by_cases hk : k = some t
    · subst hk
      have hsize := hB.size (some t)
      rw [hl, length_cons] at hsize
      rw [update_self, update_self, show s.slabSize t = _ from hsize]
      omega
    · rw [update_of_ne hk, update_of_ne hk]
      exact hB.size k
  case homes => exact hB.homes.take hl

theorem Books.put (t : T) (hg : g ∈ s.inUse) :
    Books (s.put t g) (update l (some t) (g :: l (some t))) (update home g (some (.list (some t)))) := by
  have hnot : ∀ k, g ∉ l k := hB.homes.notMem_list_of_inUse hg
  have hlink : ∀ z, z ≠ g → (s.put t g).mem z .next = s.mem z .next := fun z hz => by
    show setField (setField s.mem g .state gstFreed) g .next (s.slab t) z .next = _
    rw [setField_of_ne hz, setField_of_ne hz]
  constructor
  case chain =>
    intro k
    rw [show (s.put t g).head k = _ from congrFun (head_update s t g) k]
    by_cases hk : k = some t
    · subst hk
      rw [update_self, update_self]
      refine ⟨ptr_eq_some.mpr ⟨rfl, hB.homes.ne_zero_of_mem (hB.homes.mem_live_of_inUse hg)⟩, ?_, ?_⟩
      · rw [nextOf, show (s.put t g).mem g .next = s.slab t from setField_self]
        exact (hB.chain (some t)).head
      · refine (hB.chain (some t)).spells.congr fun z hz => ?_
        rw [nextOf, hlink z fun h => hnot _ (h ▸ hz)]
        rfl
    · rw [update_of_ne hk, update_of_ne hk]
      exact (hB.chain k).congr fun z hz => hlink z fun h => hnot k (h ▸ hz)
  case size =>
    intro k
    rw [show (s.put t g).size k = _ from congrFun (size_update s t (s.slabSize t + 1)) k]
    by_cases hk : k = some t
    · subst hk
      rw [update_self, update_self, show s.slabSize t = _ from hB.size (some t), length_cons]
      omega
    · rw [update_of_ne hk, update_of_ne hk]
      exact hB.size k
  case homes => exact hB.homes.put (some t) hg

omit [DecidableEq T] in
theorem Books.fresh (hne : g ≠ 0) (hg : g ∉ s.live) : Books { s with
        mem := update s.mem g fun _ => 0
        live := g :: s.live
        inUse := g :: s.inUse }
      l (update home g (some .inUse)) where
  chain k := by
    refine (hB.chain k).congr fun z hz => ?_
    show update s.mem g (fun _ => 0) z .next = _
    rw [update_of_ne fun h : z = g => hg (h ▸ hB.homes.mem_live_of_list hz)]
  size := hB.size
  homes := hB.homes.fresh hne hg

theorem Books.freePool :
    ∃ s', s.freePool = some s' ∧ Books s' (update l none []) fun g => if g ∈ l none then none else home g := by
  have hfree : freeList s.mem s.live.length s.globalSlab s.live = some (s.live.diff (l none)) :=
    freeList_spec (hB.chain none) (hB.homes.length_le none)
  refine ⟨_, by rw [State.freePool, hfree], fun k => ?_, fun k => ?_, hB.homes.drop none⟩
  · cases k with
    | none =>
      rw [update_self]
      exact Chain.nil s.mem
    | some t =>
      rw [update_of_ne (Option.some_ne_none t)]
      exact hB.chain (some t)
  · cases k with
    | none =>
      rw [update_self]
      rfl
    | some t =>
      rw [update_of_ne (Option.some_ne_none t)]
      exact hB.size (some t)

end

end InUse

/-! ## Calls -/

variable [DecidableEq T]

/-- An alloc returns NULL, or a struct that was not in use and is clear. -/
structure Handed (s : State T) (r : ℕ × State T) : Prop where
  inv : Inv r.2
  unused (h : r.1 ≠ 0) : r.1 ∉ s.inUse
  inUse (h : r.1 ≠ 0) : r.2.inUse = r.1 :: s.inUse
  clear (h : r.1 ≠ 0) (f : Field) (hf : f.introspection = false) : r.2.mem r.1 f = 0

section

variable (hI : Inv s)
include hI

theorem Inv.reuse {t : T} (h : s.slab t ≠ 0) : Handed s (s.slab t, s.reuse t (s.slab t)) := by
  obtain ⟨l, home, hB⟩ := hI
  obtain ⟨r, hl, -⟩ := (hB.chain (some t)).exists_cons h
  refine ⟨⟨_, _, hB.reuse hl⟩, fun _ hu => ?_, fun _ => rfl, fun _ f hf => scrub_clear hf⟩
  exact hB.homes.notMem_list_of_inUse hu (some t) (by rw [show l (some t) = _ from hl]; exact mem_cons_self)

omit [DecidableEq T] in
theorem Inv.cold {fresh : ℕ} (hf : fresh ∉ s.live) : Handed s (s.cold fresh) := by
  rw [State.cold]
  by_cases hz : fresh = 0
  · rw [if_pos hz]
    exact ⟨hI, fun h => absurd rfl h, fun h => absurd rfl h, fun h => absurd rfl h⟩
  · rw [if_neg hz]
    obtain ⟨l, home, hB⟩ := hI
    refine ⟨⟨_, _, hB.fresh hz hf⟩, fun _ hu => hf (hB.homes.mem_live_of_inUse hu), fun _ => rfl, fun _ f _ => ?_⟩
    show update s.mem fresh (fun _ => 0) fresh f = 0
    rw [update_self]

theorem Inv.alloc (batch : ℕ) (t : T) (fault : Bool) {fresh : ℕ} (hf : fresh ∉ s.live) :
    Handed s (s.slabAlloc batch t fault fresh) := by
  rw [State.slabAlloc]
  cases fault with
  | true => exact ⟨hI, fun h => absurd rfl h, fun h => absurd rfl h, fun h => absurd rfl h⟩
  | false =>
    rw [if_neg Bool.false_ne_true]
    by_cases hslab : s.slab t = 0
    · rw [if_neg (not_not_intro hslab)]
      by_cases hpool : s.globalSlab = 0
      · have hrefill : s.globalRefill batch t = (0, s) := by rw [State.globalRefill, if_pos hpool]
        rw [hrefill]
        exact hI.cold hf
      · -- the batch is the new slab, and its first struct is the one that the refill returns
        obtain ⟨hg, hm⟩ := globalRefill_eq batch t hpool
        have hslab' : (s.globalRefill batch t).2.slab t = s.globalSlab := by
          have hh := hm.head (some t)
          rwa [if_pos rfl] at hh
        have hr := (hI.refill batch t hpool).reuse (t := t) (by rw [hslab']; exact hpool)
        rw [hslab'] at hr
        simp only [hg, ne_eq, hpool, not_false_eq_true, if_true]
        exact ⟨hr.inv, fun h => hm.inUse ▸ hr.unused h, fun h => hm.inUse ▸ hr.inUse h, hr.clear⟩
    · rw [if_pos hslab]
      exact hI.reuse hslab

theorem Inv.free (batch cap : ℕ) (t : T) (hg : g ∈ s.inUse) : Inv (s.slabFree batch cap t g) := by
  obtain ⟨l, home, hB⟩ := hI
  have hput : Inv (s.put t g) := ⟨_, _, hB.put t hg⟩
  rw [State.slabFree]
  split
  · exact hput.flush batch t
  · exact hput

omit [DecidableEq T] in
theorem Inv.write {f : Field} {v : ℕ} (h : g ∈ s.inUse ∨ f.introspection = true) :
    Inv { s with mem := setField s.mem g f v } := by
  obtain ⟨l, home, hB⟩ := hI
  refine ⟨l, home, fun i => (hB.chain i).congr fun z hz => ?_, hB.size, hB.homes⟩
  show setField s.mem g f v z .next = s.mem z .next
  rcases h with hu | hf
  · rw [setField_of_ne]
    rintro rfl
    exact hB.homes.notMem_list_of_inUse hu i hz
  · rw [setField_field_of_ne]
    rintro rfl
    cases hf

theorem Inv.step {batch cap : ℕ} {a : Action T} (h : (system batch cap).step s a = some s') : Inv s' := by
  cases a with
  | alloc t fault fresh =>
    simp only [system, Slab.step] at h
    split at h <;> cases h
    exact (hI.alloc batch t fault ‹_›).inv
  | free t g =>
    simp only [system, Slab.step] at h
    split at h <;> cases h
    exact hI.free batch cap t ‹_›
  | threadFlush t =>
    obtain ⟨u, hu, hIu⟩ := hI.threadFlush t
    cases hu.symm.trans h
    exact hIu
  | freePool =>
    obtain ⟨l, home, hB⟩ := hI
    obtain ⟨u, hu, hBu⟩ := hB.freePool
    cases hu.symm.trans h
    exact ⟨_, _, hBu⟩
  | write g f v =>
    simp only [system, Slab.step] at h
    split at h <;> cases h
    exact hI.write ‹_›

end

theorem inv_of_reachable {batch cap : ℕ} (hs : (system batch cap).Reachable s) : Inv s := by
  refine hs.invariant (fun s hi => ?_) fun s a s' hI _ h => hI.step h
  exact ⟨_, _, .of_init hi⟩

/-- The struct `g` is at the place `p`, by the links of the lists. -/
def At (s : State T) : Place T → ℕ → Prop
  | .inUse, g => g ∈ s.inUse
  | .list i, g => Visits (nextOf s.mem) (ptr (s.head i)) g

/-- What holds of the slabs and the pool after any calls. -/
structure Partitioned (batch : ℕ) (s : State T) : Prop where
  place (g : ℕ) (hg : g ∈ s.live) : ∃! p, At s p g
  live (g : ℕ) (p : Place T) (hg : At s p g) : g ∈ s.live
  size (i : Option T) : ∃ l, Chain s.mem (s.head i) l ∧ l.Nodup ∧ s.size i = l.length
  alloc (t : T) (fault : Bool) (fresh : ℕ) (hf : fresh ∉ s.live) : Handed s (s.slabAlloc batch t fault fresh)
  flush (t : T) : (s.threadFlush t).isSome
  reclaim : s.freePool.isSome

omit [DecidableEq T] in
theorem Books.at_iff (hB : Books s l home) (p : Place T) : At s p g ↔ home g = some p := by
  cases p with
  | inUse => exact hB.homes.mem_inUse g
  | list i => exact (hB.chain i).visits_iff.trans (hB.homes.mem_list i g)

theorem Inv.partitioned (hI : Inv s) (batch : ℕ) : Partitioned batch s := by
  have hflush : ∀ t, (s.threadFlush t).isSome := fun t => by
    obtain ⟨u, hu, -⟩ := hI.threadFlush t
    rw [hu]
    rfl
  have halloc := fun t fault fresh (hf : fresh ∉ s.live) => hI.alloc batch t fault hf
  obtain ⟨l, home, hB⟩ := hI
  refine ⟨fun g hg => ?_, fun g p hp => ?_, fun i => ⟨l i, hB.chain i, hB.homes.nodup i, hB.size i⟩, halloc, hflush, ?_⟩
  · obtain ⟨p, hp⟩ := Option.ne_none_iff_exists'.mp ((hB.homes.mem_live g).mp hg)
    refine ⟨p, (hB.at_iff p).mpr hp, fun q hq => ?_⟩
    exact Option.some.inj (((hB.at_iff q).mp hq).symm.trans hp)
  · rw [hB.homes.mem_live, (hB.at_iff p).mp hp]
    simp
  · obtain ⟨u, hu, -⟩ := hB.freePool
    rw [hu]
    rfl

/-- After any sequence of calls, each live struct is in use, in one slab or in the pool. -/
theorem slabs_partitioned (batch cap : ℕ) (s : State T) (hs : (system batch cap).Reachable s) : Partitioned batch s :=
  (inv_of_reachable hs).partitioned batch

def noStructs : State ℕ := ⟨fun _ _ => 7, fun _ => 0, fun _ => 0, 0, 0, [], []⟩

/-- Thread 0 spills a batch; thread 1 gets one of it. -/
def spillAndRefill : List (Action ℕ) :=
  [.alloc 0 false 10, .alloc 0 false 20, .alloc 0 false 30, .write 10 .passIndex 1, .free 0 10, .free 0 20,
    .free 0 30, .alloc 1 false 40]

theorem slabs_partitioned_spillAndRefill :
    ∃ s : State ℕ, (system 2 2).Reachable s ∧ s.inUse = [30] ∧ s.slab 0 = 10 ∧ s.slab 1 = 20 ∧
      s.mem 10 .passIndex = 1 ∧ Partitioned 2 s := by
  obtain ⟨s, hs, hu, h0, h1, hpass⟩ := (system 2 2).reaches
    (fun s : State ℕ => s.inUse = [30] ∧ s.slab 0 = 10 ∧ s.slab 1 = 20 ∧ s.mem 10 .passIndex = 1)
    spillAndRefill (s := noStructs) ⟨fun _ => rfl, fun _ => rfl, rfl, rfl, rfl, rfl⟩ (by decide +kernel)
  exact ⟨s, hs, hu, h0, h1, hpass, slabs_partitioned 2 2 s hs⟩

end Runloom.Slab
