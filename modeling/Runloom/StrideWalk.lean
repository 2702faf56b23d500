import Mathlib.Data.Nat.ModEq
import Mathlib.Data.List.Nodup
import Mathlib.Data.List.Perm.Subperm

/-!
# Walks by a coprime stride

Model of the order in which `select_try_each` visits its cases and an idle hub the deques of the others.  Both search
a stride that is coprime with the count, from one that is drawn or that comes from the id of the hub.
-/

namespace Runloom.StrideWalk

/-- The loop of `runloom_select_gcd` and of `runloom_steal_gcd`. -/
def gcd (a b : ℕ) : ℕ :=
  if b = 0 then a else gcd b (a % b)
termination_by b
decreasing_by exact Nat.mod_lt a (Nat.pos_of_ne_zero ‹_›)

/-- The search for a stride, with at most `fuel` tests. -/
def searchStride (n : ℕ) : ℕ → ℕ → Option ℕ
  | 0, _ => none
  | fuel + 1, s => if gcd s n = 1 then some s else searchStride n fuel (s % (n - 1) + 1)

def stepWrapped (n stride i : ℕ) : ℕ :=
  if n ≤ i + stride then i + stride - n else i + stride

/-- The indices of the cases in the order of the walk. -/
def walk (n stride : ℕ) : ℕ → ℕ → List ℕ
  | 0, _ => []
  | k + 1, i => i :: walk n stride k (stepWrapped n stride i)

def selectStart (n : ℕ) (r : UInt64) : ℕ :=
  if 1 < n then r.toNat % n else 0

def selectStride (fuel n : ℕ) (r : UInt64) : Option ℕ :=
  if 2 < n then searchStride n fuel (1 + r.toNat % (n - 1)) else some 1

/-- The order of `select_try_each` if no case can proceed. -/
def selectTryEach (fuel n : ℕ) (r₀ r₁ : UInt64) : Option (List ℕ) :=
  (selectStride fuel n r₁).map fun stride => walk n stride n (selectStart n r₀)

def stealStride (fuel n id : ℕ) : Option ℕ :=
  if n < 3 then some 1 else searchStride n fuel (1 + id % (n - 1))

/-- The loop over the hubs: `pos` is not wrapped, and the index is its remainder. -/
def scan (n stride : ℕ) : ℕ → ℕ → List ℕ
  | 0, _ => []
  | k + 1, pos => pos % n :: scan n stride k (pos + stride)

/-- The positions that a hub scans; `r` is drawn by a randomized scheduler. -/
def stealScan (fuel n id : ℕ) : Option UInt64 → Option (List ℕ)
  | some r => (stealStride fuel n ((r >>> 24).toNat % n)).map fun stride => scan n stride n (r.toNat % n)
  | none => (stealStride fuel n id).map fun stride => scan n stride n id

/-- The hubs whose deques are tried. -/
def victims (id : ℕ) (order : List ℕ) : List ℕ :=
  order.filter (· ≠ id)

/-! ## The search -/

theorem gcd_eq (a b : ℕ) : gcd a b = a.gcd b := by
  induction a, b using gcd.induct with
  | case1 a => rw [gcd, if_pos rfl, Nat.gcd_zero_right]
  | case2 a b h ih => rw [gcd, if_neg h, ih, Nat.gcd_comm b, Nat.gcd_comm a, Nat.gcd_rec b a]

variable {n : ℕ}

theorem coprime_pred (h : 1 < n) : (n - 1).Coprime n := by
  obtain ⟨m, rfl⟩ := Nat.exists_eq_add_of_lt h
  simp

/-- The search goes up and ends at `n - 1` at the latest: it does not wrap. -/
theorem searchStride_spec {s : ℕ} (hn : 1 < n) (hs : s < n) :
    ∃ t, t < n ∧ t.Coprime n ∧ ∀ fuel, n ≤ fuel + s → searchStride n fuel s = some t := by
  induction hd : n - s generalizing s with
  | zero => omega
  | succ d ih =>
    by_cases hc : s.Coprime n
    · refine ⟨s, hs, hc, fun fuel hf => ?_⟩
      obtain _ | fuel := fuel
      · omega
      · rw [searchStride, if_pos ((gcd_eq s n).trans hc)]
    · have hlast : s ≠ n - 1 := fun h => hc (h ▸ coprime_pred hn)
      have hnext : s % (n - 1) + 1 = s + 1 := by rw [Nat.mod_eq_of_lt (by omega)]
      obtain ⟨t, ht, htc, hfuel⟩ := ih (s := s + 1) (by omega) (by omega)
      refine ⟨t, ht, htc, fun fuel hf => ?_⟩
      obtain _ | fuel := fuel
      · omega
      · rw [searchStride, if_neg fun h => hc ((gcd_eq s n).symm.trans h), hnext]
        exact hfuel fuel (by omega)

/-! ## The walk -/

variable {stride : ℕ}

theorem stepWrapped_eq {i : ℕ} (hi : i < n) (hs : stride ≤ n) : stepWrapped n stride i = (i + stride) % n := by
  rw [stepWrapped]
  split
  · rw [Nat.mod_eq_sub_mod (by omega), Nat.mod_eq_of_lt (by omega)]
  · rw [Nat.mod_eq_of_lt (by omega)]

theorem walk_eq_scan {i : ℕ} (hi : i < n) (hs : stride ≤ n) (k pos : ℕ) (hp : pos % n = i) :
    walk n stride k i = scan n stride k pos := by
  induction k generalizing i pos with
  | zero => rfl
  | succ k ih =>
    have hnext : (pos + stride) % n = stepWrapped n stride i := by
      rw [stepWrapped_eq hi hs, ← hp, Nat.mod_add_mod]
    rw [walk, scan, hp, ih (hnext ▸ Nat.mod_lt _ (by omega)) _ hnext]

theorem scan_eq_map (n stride k pos : ℕ) :
    scan n stride k pos = (List.range k).map fun j => (pos + j * stride) % n := by
  induction k generalizing pos with
  | zero => rfl
  | succ k ih =>
    rw [scan, ih, List.range_succ_eq_map, List.map_cons, List.map_map, Nat.zero_mul, Nat.add_zero]
    refine congrArg _ (List.map_congr_left fun j _ => ?_)
    simp only [Function.comp_apply, Nat.succ_mul, Nat.add_assoc, Nat.add_comm stride]

theorem scan_nodup (hc : stride.Coprime n) (pos : ℕ) : (scan n stride n pos).Nodup := by
  rw [scan_eq_map]
  refine List.Nodup.map_on (fun a ha b hb h => ?_) List.nodup_range
  have hmul : a * stride ≡ b * stride [MOD n] := Nat.ModEq.add_left_cancel' pos h
  have hab : a ≡ b [MOD n] := Nat.ModEq.cancel_right_of_coprime hc.symm hmul
  exact hab.eq_of_lt_of_lt (List.mem_range.mp ha) (List.mem_range.mp hb)

theorem scan_perm (hn : 0 < n) (hc : stride.Coprime n) (pos : ℕ) : (scan n stride n pos).Perm (List.range n) := by
  have hlt : scan n stride n pos ⊆ List.range n := by
    intro i hi
    rw [scan_eq_map] at hi
    obtain ⟨j, -, rfl⟩ := List.mem_map.mp hi
    exact List.mem_range.mpr (Nat.mod_lt _ hn)
  refine (List.subperm_of_subset (scan_nodup hc pos) hlt).perm_of_length_le ?_
  simp [scan_eq_map]

/-! ## The two orders -/

theorem selectStride_spec (hn : 0 < n) (r : UInt64) :
    ∃ t, t ≤ n ∧ t.Coprime n ∧ ∀ fuel, n ≤ fuel → selectStride fuel n r = some t := by
  by_cases h2 : 2 < n
  · have hr : r.toNat % (n - 1) < n - 1 := Nat.mod_lt _ (by omega)
    obtain ⟨t, ht, hc, hf⟩ := searchStride_spec (s := 1 + r.toNat % (n - 1)) (show 1 < n by omega) (by omega)
    exact ⟨t, ht.le, hc, fun fuel hle => by rw [selectStride, if_pos h2, hf fuel (by omega)]⟩
  · exact ⟨1, hn, Nat.coprime_one_left n, fun fuel _ => if_neg h2⟩

theorem stealStride_spec (n id : ℕ) : ∃ t, t.Coprime n ∧ ∀ fuel, n ≤ fuel → stealStride fuel n id = some t := by
  by_cases h3 : n < 3
  · exact ⟨1, Nat.coprime_one_left n, fun fuel _ => if_pos h3⟩
  · have hr : id % (n - 1) < n - 1 := Nat.mod_lt _ (by omega)
    obtain ⟨t, -, hc, hf⟩ := searchStride_spec (s := 1 + id % (n - 1)) (show 1 < n by omega) (by omega)
    exact ⟨t, hc, fun fuel hle => by rw [stealStride, if_neg h3, hf fuel (by omega)]⟩

theorem selectTryEach_perm (hn : 0 < n) (r₀ r₁ : UInt64) :
    ∃ order, order.Perm (List.range n) ∧ ∀ fuel, n ≤ fuel → selectTryEach fuel n r₀ r₁ = some order := by
  obtain ⟨t, ht, hc, hf⟩ := selectStride_spec hn r₁
  have hstart : selectStart n r₀ < n := by
    rw [selectStart]
    split
    · exact Nat.mod_lt _ hn
    · exact hn
  refine ⟨walk n t n (selectStart n r₀), ?_, fun fuel hle => ?_⟩
  · rw [walk_eq_scan hstart ht n _ (Nat.mod_eq_of_lt hstart)]
    exact scan_perm hn hc _
  · rw [selectTryEach, hf fuel hle, Option.map_some]

theorem stealScan_perm (hn : 0 < n) (id : ℕ) (draw : Option UInt64) :
    ∃ order, order.Perm (List.range n) ∧ ∀ fuel, n ≤ fuel → stealScan fuel n id draw = some order := by
  obtain _ | r := draw
  · obtain ⟨t, hc, hf⟩ := stealStride_spec n id
    exact ⟨_, scan_perm hn hc id, fun fuel hle => by rw [stealScan, hf fuel hle, Option.map_some]⟩
  · obtain ⟨t, hc, hf⟩ := stealStride_spec n ((r >>> 24).toNat % n)
    exact ⟨_, scan_perm hn hc _, fun fuel hle => by rw [stealScan, hf fuel hle, Option.map_some]⟩

/-- The searches end, `select_try_each` visits every case once, and a hub tries every other hub once. -/
theorem coprime_walks_visit_once (n : ℕ) (hn : 1 ≤ n) :
    (∀ r₀ r₁ : UInt64, ∃ order : List ℕ, (∀ fuel, n ≤ fuel → selectTryEach fuel n r₀ r₁ = some order) ∧
      order.length = n ∧ ∀ i < n, order.count i = 1) ∧
    ∀ (id : ℕ) (draw : Option UInt64), ∃ order : List ℕ,
      (∀ fuel, n ≤ fuel → stealScan fuel n id draw = some order) ∧
      order.length = n ∧ (∀ i < n, order.count i = 1) ∧
      ∀ i, (victims id order).count i = if i < n ∧ i ≠ id then 1 else 0 := by
  have hcount : ∀ {order : List ℕ}, order.Perm (List.range n) → ∀ i, order.count i = if i < n then 1 else 0 := by
    intro order hp i
    rw [hp.count_eq, List.nodup_range.count]
    simp only [List.mem_range]
  constructor
  · intro r₀ r₁
    obtain ⟨order, hp, hf⟩ := selectTryEach_perm hn r₀ r₁
    exact ⟨order, hf, hp.length_eq.trans List.length_range, fun i hi => by rw [hcount hp, if_pos hi]⟩
  · intro id draw
    obtain ⟨order, hp, hf⟩ := stealScan_perm hn id draw
    refine ⟨order, hf, hp.length_eq.trans List.length_range, fun i hi => by rw [hcount hp, if_pos hi], fun i => ?_⟩
    by_cases hi : i = id
    · rw [if_neg fun h => h.2 hi, List.count_eq_zero]
      exact fun h => of_decide_eq_true (List.mem_filter.mp h).2 hi
    · rw [victims, List.count_filter (by simpa using hi), hcount hp]
      simp only [ne_eq, hi, not_false_eq_true, and_true]

theorem coprime_walks_visit_once_six :
    ∃ order : List ℕ, (∀ fuel, 6 ≤ fuel → selectTryEach fuel 6 9 7 = some order) ∧
      order.length = 6 ∧ ∀ i < 6, order.count i = 1 :=
  (coprime_walks_visit_once 6 (by decide)).1 9 7

end Runloom.StrideWalk
