import Mathlib.Data.Int.Notation
import Mathlib.Data.List.Nodup
import Runloom.Linked.Chain
import Runloom.Transition.System

/-!
# Bulk spawn

Model of the create pass of `runloom_mn_fiber_n_bulk`: the serial loop, `runloom_pcreate_worker` and the merge of the
builders' lists.  A fiber is named by its index in the arena.  The builders share the arena and run at the same time;
one turn of a builder's loop is a step.
-/

namespace Runloom.BulkSpawn

open Transition

/-- What all the fibers of a batch have in common is in the template. -/
structure Fiber (τ : Type*) where
  tmpl : τ
  owner : ℕ
  id : ℤ
  cArg : ℕ
  next : Option ℕ

/-- `garena`. -/
abbrev Arena (τ : Type*) := ℕ → Fiber τ

/-- `pairAff` is `runloom_pair_affinity_mode`; there are `P` builders. -/
structure Config (τ : Type*) where
  n : ℕ
  H : ℕ
  P : ℕ
  pairAff : Bool
  goidBase : ℤ
  tmpl : τ

/-- The lists of the hubs. -/
structure Lists where
  heads : ℕ → Option ℕ
  tails : ℕ → Option ℕ
  counts : ℕ → ℕ

def Lists.empty : Lists := ⟨fun _ => none, fun _ => none, fun _ => 0⟩

variable {τ : Type*} (c : Config τ)

def Config.hub (i : ℕ) : ℕ := if c.pairAff then (i >>> 1) % c.H else i % c.H

/-- `g->next = q`. -/
def Arena.setNext (A : Arena τ) (t : ℕ) (q : Option ℕ) : Arena τ := update A t { A t with next := q }

/-- The body of the loop: the fiber is filled in and hung on the list of its hub. -/
def append (A : Arena τ) (L : Lists) (i : ℕ) : Arena τ × Lists :=
  let hub := c.hub i
  let A : Arena τ := update A i ⟨c.tmpl, hub, c.goidBase + i, i, none⟩
  let tails := update L.tails hub (some i)
  let counts := update L.counts hub (L.counts hub + 1)
  match L.tails hub with
  | some t => (A.setNext t (some i), ⟨L.heads, tails, counts⟩)
  | none => (A, ⟨update L.heads hub (some i), tails, counts⟩)

def serial (A : Arena τ) : Arena τ × Lists :=
  (List.range c.n).foldl (fun s i => append c s.1 s.2 i) (A, .empty)

/-! ### The builders -/

/-- `args[b].lo`; the slice of `b` ends at `lo (b + 1)`. -/
def Config.lo (b : ℕ) : ℕ := b * c.n / c.P

/-- A builder before its turn `i`. -/
structure Builder where
  i : ℕ
  lists : Lists

structure State (τ : Type*) where
  arena : Arena τ
  builders : ℕ → Builder

/-- One turn of the builder `b`. -/
def step (s : State τ) (b : ℕ) : Option (State τ) :=
  let w := s.builders b
  if b < c.P ∧ w.i < c.lo (b + 1) then
    let r := append c s.arena w.lists w.i
    some ⟨r.1, update s.builders b ⟨w.i + 1, r.2⟩⟩
  else none

def pcreate (A : Arena τ) : System (State τ) ℕ where
  init s := s.arena = A ∧ ∀ b, s.builders b = ⟨c.lo b, .empty⟩
  step := step c

def State.Joined (s : State τ) : Prop := ∀ b < c.P, (s.builders b).i = c.lo (b + 1)

/-! ### The merge -/

/-- The list of the hub `hh` of one builder is hung on. -/
def mergeHub (B : Lists) (r : Arena τ × Lists) (hh : ℕ) : Arena τ × Lists :=
  if B.heads hh = none then r
  else
    let L := r.2
    let tails := update L.tails hh (B.tails hh)
    let counts := update L.counts hh (L.counts hh + B.counts hh)
    match L.tails hh with
    | some t => (r.1.setNext t (B.heads hh), ⟨L.heads, tails, counts⟩)
    | none => (r.1, ⟨update L.heads hh (B.heads hh), tails, counts⟩)

def mergeBuilder (r : Arena τ × Lists) (B : Lists) : Arena τ × Lists := (List.range c.H).foldl (mergeHub B) r

def merge (s : State τ) : Arena τ × Lists :=
  (List.range c.P).foldl (fun r b => mergeBuilder c r (s.builders b).lists) (s.arena, .empty)

end Runloom.BulkSpawn

/-!
## The parallel create pass builds what the serial loop builds

`Built` says that the lists of the hubs hold the fibers of a list of indices, each in the list of its hub and in that
order.
-/

namespace Runloom.BulkSpawn

open Transition Linked List

variable {τ : Type*} {c : Config τ} {A A' : Arena τ} {L L' B : Lists} {S T l k : List ℕ} {h i t : ℕ} {q : Option ℕ}

/-! ## Lists of one hub -/

def Arena.next (A : Arena τ) (i : ℕ) : Option ℕ := (A i).next

theorem setNext_next (A : Arena τ) (t : ℕ) (q : Option ℕ) : (A.setNext t q).next = update A.next t q := by
  funext i
  unfold Arena.next Arena.setNext
  by_cases hi : i = t
  · subst hi
    simp only [update_self]
  · simp only [update_of_ne hi]

/-- The list of the hub `h` is `l`. -/
structure HubList (A : Arena τ) (L : Lists) (h : ℕ) (l : List ℕ) : Prop where
  head : L.heads h = l.head?
  tail : L.tails h = l.getLast?
  count : L.counts h = l.length
  spells : Spells A.next l

theorem HubList.congr (hl : HubList A L h l) (hA : ∀ i ∈ l, A'.next i = A.next i)
    (hL : L'.heads h = L.heads h ∧ L'.tails h = L.tails h ∧ L'.counts h = L.counts h) : HubList A' L' h l :=
  ⟨hL.1.trans hl.head, hL.2.1.trans hl.tail, hL.2.2.trans hl.count, hl.spells.congr hA⟩

theorem spells_join {next : ℕ → Option ℕ} (hl : Spells next l) (hk : Spells next k) (hlast : l.getLast? = some t)
    (hd : l.Nodup) (ht : t ∉ k) : Spells (update next t k.head?) (l ++ k) := by
  obtain ⟨m, rfl⟩ := List.getLast?_eq_some_iff.mp hlast
  have hnot : t ∉ m := by
    intro hm
    exact (nodup_append.mp hd).2.2 t hm t (mem_singleton_self t) rfl
  rw [append_assoc]
  exact Spells.splice hl hk hnot ht

theorem getLast?_append_of_ne_nil (hk : k ≠ []) : (l ++ k).getLast? = k.getLast? := by
  rw [List.getLast?_append]
  obtain ⟨x, hx⟩ := Option.ne_none_iff_exists'.mp (mt List.getLast?_eq_none_iff.mp hk)
  rw [hx]
  rfl

/-! ## What a loop has built -/

def Filled (c : Config τ) (A : Arena τ) (i : ℕ) : Prop :=
  (A i).tmpl = c.tmpl ∧ (A i).owner = c.hub i ∧ (A i).id = c.goidBase + i ∧ (A i).cArg = i

def ofHub (c : Config τ) (S : List ℕ) (h : ℕ) : List ℕ := S.filter (c.hub · = h)

theorem mem_ofHub : i ∈ ofHub c S h ↔ i ∈ S ∧ c.hub i = h := by
  simp [ofHub]

structure Built (c : Config τ) (A : Arena τ) (L : Lists) (S : List ℕ) : Prop where
  nodup : S.Nodup
  hubs (h : ℕ) : HubList A L h (ofHub c S h)
  filled {i : ℕ} (hi : i ∈ S) : Filled c A i

theorem built_nil : Built c A .empty [] :=
  ⟨nodup_nil, fun _ => ⟨rfl, rfl, rfl, trivial⟩, fun hi => absurd hi not_mem_nil⟩

namespace Built

section

variable (hB : Built c A L S)
include hB

theorem congr (hA : ∀ i ∈ S, A' i = A i) : Built c A' L S where
  nodup := hB.nodup
  hubs h := (hB.hubs h).congr (fun i hi => congrArg Fiber.next (hA i (mem_ofHub.mp hi).1)) ⟨rfl, rfl, rfl⟩
  filled {i} hi := by
    unfold Filled
    rw [hA i hi]
    exact hB.filled hi

theorem tail_mem (ht : L.tails h = some t) : t ∈ ofHub c S h := by
  rw [(hB.hubs h).tail] at ht
  exact mem_of_getLast? ht

theorem append_other (i : ℕ) {j : ℕ} (hj : j ∉ S) (hji : j ≠ i) : (append c A L i).1 j = A j := by
  unfold append
  dsimp only
  split
  next t ht =>
    have hjt : j ≠ t := by
      rintro rfl
      exact hj (mem_ofHub.mp (hB.tail_mem ht)).1
    dsimp only [Arena.setNext]
    rw [update_of_ne hjt, update_of_ne hji]
  next => exact update_of_ne hji _ _

theorem append_filled {j : ℕ} (hj : j ∈ S ++ [i]) : Filled c (append c A L i).1 j := by
  let A₁ : Arena τ := update A i ⟨c.tmpl, c.hub i, c.goidBase + i, i, none⟩
  have hfill : Filled c A₁ j := by
    by_cases hji : j = i
    · subst hji
      unfold Filled
      simp only [A₁, update_self, and_self]
    · have hsame : A₁ j = A j := update_of_ne hji _ _
      unfold Filled
      rw [hsame]
      exact hB.filled ((mem_append.mp hj).resolve_right fun h => hji (mem_singleton.mp h))
  unfold append
  dsimp only
  split
  next t _ =>
    show Filled c (A₁.setNext t (some i)) j
    unfold Filled Arena.setNext
    by_cases hjt : j = t
    · subst hjt
      simp only [update_self]
      exact hfill
    · simp only [update_of_ne hjt]
      exact hfill
  next => exact hfill

theorem append_hub (hi : i ∉ S) (h : ℕ) :
    HubList (append c A L i).1 (append c A L i).2 h (ofHub c (S ++ [i]) h) := by
  let A₁ : Arena τ := update A i ⟨c.tmpl, c.hub i, c.goidBase + i, i, none⟩
  have hnext : A₁.next = update A.next i none := by
    funext j
    unfold Arena.next
    by_cases hji : j = i
    · subst hji
      simp only [A₁, update_self]
    · simp only [A₁, update_of_ne hji]
  have hnot : ∀ h, i ∉ ofHub c S h := fun h hm => hi (mem_ofHub.mp hm).1
  have hsplit : ofHub c (S ++ [i]) h = ofHub c S h ++ if c.hub i = h then [i] else [] := by
    simp [ofHub, filter_append, filter_cons]
  have hspells : ∀ h, Spells A₁.next (ofHub c S h) := by
    intro h
    rw [hnext]
    exact (hB.hubs h).spells.update_of_notMem (hnot h)
  rw [hsplit]
  by_cases hh : c.hub i = h
  · subst hh
    rw [if_pos rfl]
    have hone : Spells A₁.next [i] := ⟨by rw [hnext, update_self]; rfl, trivial⟩
    have hcount : L.counts (c.hub i) + 1 = (ofHub c S (c.hub i) ++ [i]).length := by
      rw [(hB.hubs _).count, length_append, length_singleton]
    unfold append
    dsimp only
    split
    next t ht =>
      have hlast : (ofHub c S (c.hub i)).getLast? = some t := (hB.hubs _).tail.symm.trans ht
      have hti : t ∉ [i] := by
        intro hm
        rw [mem_singleton.mp hm] at ht
        exact hnot _ (hB.tail_mem ht)
      refine ⟨?_, ?_, ?_, ?_⟩
      · have hne : ofHub c S (c.hub i) ≠ [] := by
          intro hnil
          rw [hnil] at hlast
          cases hlast
        rw [(hB.hubs _).head, List.head?_append_of_ne_nil _ hne]
      · dsimp only
        rw [update_self, getLast?_append_of_ne_nil (cons_ne_nil i [])]
        rfl
      · dsimp only
        rw [update_self]
        exact hcount
      · show Spells (A₁.setNext t (some i)).next _
        rw [setNext_next]
        exact spells_join (hspells _) hone hlast (hB.nodup.filter _) hti
    next ht =>
      have hnil : ofHub c S (c.hub i) = [] := List.getLast?_eq_none_iff.mp ((hB.hubs _).tail.symm.trans ht)
      rw [hnil] at hcount ⊢
      exact ⟨update_self .., update_self .., (update_self ..).trans hcount, hone⟩
  · -- the list of another hub
    rw [if_neg hh, append_nil]
    have hne : h ≠ c.hub i := fun heq => hh heq.symm
    have hold : HubList A₁ L h (ofHub c S h) := ⟨(hB.hubs h).head, (hB.hubs h).tail, (hB.hubs h).count, hspells h⟩
    unfold append
    dsimp only
    split
    next t ht =>
      refine hold.congr (fun j hj => ?_) ⟨rfl, update_of_ne hne _ _, update_of_ne hne _ _⟩
      have hjt : j ≠ t := by
        rintro rfl
        exact hne ((mem_ofHub.mp hj).2.symm.trans (mem_ofHub.mp (hB.tail_mem ht)).2)
      show (A₁.setNext t (some i)).next j = _
      rw [setNext_next, update_of_ne hjt]
    next =>
      exact hold.congr (fun _ _ => rfl) ⟨update_of_ne hne _ _, update_of_ne hne _ _, update_of_ne hne _ _⟩

theorem append (hi : i ∉ S) : Built c (BulkSpawn.append c A L i).1 (BulkSpawn.append c A L i).2 (S ++ [i]) where
  nodup := by
    refine nodup_append.mpr ⟨hB.nodup, nodup_singleton i, ?_⟩
    rintro a ha b hb rfl
    exact hi (mem_singleton.mp hb ▸ ha)
  hubs := hB.append_hub hi
  filled := hB.append_filled

end

end Built

/-! ## The serial loop -/

theorem serial_built (c : Config τ) (A : Arena τ) (n : ℕ) :
    let r := (List.range n).foldl (fun s i => append c s.1 s.2 i) (A, Lists.empty)
    Built c r.1 r.2 (List.range n) := by
  induction n with
  | zero => exact built_nil
  | succ n ih =>
    simp only [range_succ, foldl_append, foldl_cons, foldl_nil]
    exact ih.append not_mem_range_self

/-! ## The merge -/

theorem setNext_other (A : Arena τ) {j : ℕ} (hj : j ≠ t) : A.setNext t q j = A j := update_of_ne hj _ _

theorem setNext_filled {j : ℕ} (hf : Filled c A j) : Filled c (A.setNext t q) j := by
  unfold Filled Arena.setNext
  by_cases hj : j = t
  · subst hj
    simp only [update_self]
    exact hf
  · simp only [update_of_ne hj]
    exact hf

theorem mergeHub_spec (hl : HubList A L h l) (hk : HubList A B h k) (hd : l.Nodup) (hdis : ∀ i ∈ l, i ∉ k) :
    HubList (mergeHub B (A, L) h).1 (mergeHub B (A, L) h).2 h (l ++ k) ∧
      (∀ j, j ∉ l → (mergeHub B (A, L) h).1 j = A j) ∧
      (∀ h', h' ≠ h → (mergeHub B (A, L) h).2.heads h' = L.heads h' ∧ (mergeHub B (A, L) h).2.tails h' = L.tails h' ∧
        (mergeHub B (A, L) h).2.counts h' = L.counts h') ∧
      ∀ j, Filled c A j → Filled c (mergeHub B (A, L) h).1 j := by
  unfold mergeHub
  split
  next hnone =>
    have hnil : k = [] := List.head?_eq_none_iff.mp (hk.head.symm.trans hnone)
    rw [hnil, append_nil]
    exact ⟨hl, fun _ _ => rfl, fun _ _ => ⟨rfl, rfl, rfl⟩, fun _ hf => hf⟩
  next hsome =>
    have hne : k ≠ [] := by
      rintro rfl
      exact hsome hk.head
    have hcount : L.counts h + B.counts h = (l ++ k).length := by
      rw [hl.count, hk.count, length_append]
    have hlast : B.tails h = (l ++ k).getLast? := by
      rw [hk.tail, getLast?_append_of_ne_nil hne]
    dsimp only
    split
    next t ht =>
      have htail : l.getLast? = some t := hl.tail.symm.trans ht
      have htl : t ∈ l := mem_of_getLast? htail
      refine ⟨⟨?_, (update_self ..).trans hlast, (update_self ..).trans hcount, ?_⟩, ?_, ?_, ?_⟩
      · rw [List.head?_append_of_ne_nil _ (ne_nil_of_mem htl)]
        exact hl.head
      · dsimp only
        rw [setNext_next, hk.head]
        exact spells_join hl.spells hk.spells htail hd (hdis t htl)
      · intro j hj
        exact setNext_other A fun heq => hj (heq ▸ htl)
      · intro h' hh'
        exact ⟨rfl, update_of_ne hh' _ _, update_of_ne hh' _ _⟩
      · exact fun j hf => setNext_filled hf
    next ht =>
      have hnil : l = [] := List.getLast?_eq_none_iff.mp (hl.tail.symm.trans ht)
      subst hnil
      refine ⟨⟨(update_self ..).trans hk.head, (update_self ..).trans hlast,
        (update_self ..).trans hcount, hk.spells⟩, fun _ _ => rfl, fun h' hh' => ?_, fun _ hf => hf⟩
      exact ⟨update_of_ne hh' _ _, update_of_ne hh' _ _, update_of_ne hh' _ _⟩

/-- The merge of one builder after the first `m` hubs. -/
structure Merging (c : Config τ) (A : Arena τ) (B : Lists) (S T : List ℕ) (m : ℕ) (r : Arena τ × Lists) : Prop where
  merged (h : ℕ) (hh : h < m) : HubList r.1 r.2 h (ofHub c S h ++ ofHub c T h)
  left (h : ℕ) (hh : m ≤ h) : HubList r.1 r.2 h (ofHub c S h)
  other (j : ℕ) (hj : j ∉ S) : r.1 j = A j
  filled (j : ℕ) (hf : Filled c A j) : Filled c r.1 j

theorem Merging.fold (hS : Built c A L S) (hT : Built c A B T) (hdis : ∀ i ∈ S, i ∉ T) (m : ℕ) :
    Merging c A B S T m ((List.range m).foldl (mergeHub B) (A, L)) := by
  induction m with
  | zero => exact ⟨fun h hh => absurd hh (Nat.not_lt_zero h), fun h _ => hS.hubs h, fun _ _ => rfl, fun _ hf => hf⟩
  | succ m ih =>
    rw [range_succ, foldl_append, foldl_cons, foldl_nil]
    generalize (List.range m).foldl (mergeHub B) (A, L) = r at ih ⊢
    obtain ⟨A₁, L₁⟩ := r
    -- the builder's own list is still as it was
    have hB : HubList A₁ B m (ofHub c T m) := by
      refine (hT.hubs m).congr (fun i hi => ?_) ⟨rfl, rfl, rfl⟩
      have hiS : i ∉ S := fun hm => hdis i hm (mem_ofHub.mp hi).1
      exact congrArg Fiber.next (ih.other i hiS)
    have hd : ∀ i ∈ ofHub c S m, i ∉ ofHub c T m := fun i hi hm =>
      hdis i (mem_ofHub.mp hi).1 (mem_ofHub.mp hm).1
    obtain ⟨hnew, hother, hlists, hfill⟩ := mergeHub_spec (c := c) (ih.left m (Nat.le_refl m)) hB (hS.nodup.filter _) hd
    have hframe : ∀ {h' l'}, h' ≠ m → (∀ i ∈ l', c.hub i = h') → HubList A₁ L₁ h' l' →
        HubList (mergeHub B (A₁, L₁) m).1 (mergeHub B (A₁, L₁) m).2 h' l' := by
      intro h' l' hh' hmem hl'
      refine hl'.congr (fun i hi => ?_) (hlists h' hh')
      have hnot : i ∉ ofHub c S m := fun hm => hh' ((hmem i hi).symm.trans (mem_ofHub.mp hm).2)
      exact congrArg Fiber.next (hother i hnot)
    refine ⟨fun h hh => ?_, fun h hh => ?_, fun j hj => ?_, fun j hf => hfill j (ih.filled j hf)⟩
    · by_cases hm : h = m
      · rw [hm]
        exact hnew
      · refine hframe hm (fun i hi => ?_) (ih.merged h (by omega))
        rcases mem_append.mp hi with hi | hi <;> exact (mem_ofHub.mp hi).2
    · exact hframe (by omega) (fun i hi => (mem_ofHub.mp hi).2) (ih.left h (by omega))
    · rw [hother j fun hm => hj (mem_ofHub.mp hm).1]
      exact ih.other j hj

theorem hub_lt (hH : 0 < c.H) (i : ℕ) : c.hub i < c.H := by
  unfold Config.hub
  split <;> exact Nat.mod_lt _ hH

theorem Built.merge (hH : 0 < c.H) (hS : Built c A L S) (hT : Built c A B T) (hdis : ∀ i ∈ S, i ∉ T) :
    Built c (mergeBuilder c (A, L) B).1 (mergeBuilder c (A, L) B).2 (S ++ T) ∧
      ∀ j, j ∉ S → (mergeBuilder c (A, L) B).1 j = A j := by
  have hM := Merging.fold hS hT hdis c.H
  refine ⟨⟨?_, fun h => ?_, fun {i} hi => ?_⟩, hM.other⟩
  · refine nodup_append.mpr ⟨hS.nodup, hT.nodup, ?_⟩
    rintro a ha b hb rfl
    exact hdis a ha hb
  · have hsplit : ofHub c (S ++ T) h = ofHub c S h ++ ofHub c T h := filter_append ..
    rw [hsplit]
    by_cases hh : h < c.H
    · exact hM.merged h hh
    · have hnone : ofHub c T h = [] := by
        refine eq_nil_iff_forall_not_mem.mpr fun i hi => ?_
        have hlt := hub_lt hH i
        rw [(mem_ofHub.mp hi).2] at hlt
        exact hh hlt
      rw [hnone, append_nil]
      exact hM.left h (by omega)
  · refine hM.filled i ?_
    rcases mem_append.mp hi with hi | hi
    · exact hS.filled hi
    · exact hT.filled hi

/-! ## The slices -/

theorem lo_le_lo (c : Config τ) {b b' : ℕ} (hb : b ≤ b') : c.lo b ≤ c.lo b' :=
  Nat.div_le_div_right (Nat.mul_le_mul_right c.n hb)

theorem lo_last (hP : 0 < c.P) : c.lo c.P = c.n := Nat.mul_div_cancel_left c.n hP

/-- The indices from `lo b` up to `i`. -/
def Config.from (c : Config τ) (b i : ℕ) : List ℕ := List.range' (c.lo b) (i - c.lo b)

theorem mem_from {b j : ℕ} (hi : c.lo b ≤ i) : j ∈ c.from b i ↔ c.lo b ≤ j ∧ j < i := by
  rw [Config.from, mem_range'_1]
  omega

theorem from_succ {b : ℕ} (hi : c.lo b ≤ i) : c.from b (i + 1) = c.from b i ++ [i] := by
  have hlen : i + 1 - c.lo b = i - c.lo b + 1 := by omega
  have hlast : c.lo b + (i - c.lo b) = i := by omega
  rw [Config.from, hlen, List.range'_1_concat, hlast]
  rfl

theorem range_append_from (c : Config τ) (b : ℕ) :
    List.range (c.lo b) ++ c.from b (c.lo (b + 1)) = List.range (c.lo (b + 1)) := by
  have hle := lo_le_lo c (show b ≤ b + 1 by omega)
  have hlen : c.lo b + (c.lo (b + 1) - c.lo b) = c.lo (b + 1) := by omega
  rw [Config.from, range_eq_range', range_eq_range', ← hlen, ← List.range'_append_1, Nat.zero_add, hlen]

/-! ## The builders -/

/-- Each builder has built its slice up to its turn. -/
structure Inv (c : Config τ) (s : State τ) : Prop where
  lower (b : ℕ) : c.lo b ≤ (s.builders b).i
  upper (b : ℕ) : (s.builders b).i ≤ c.lo (b + 1)
  built (b : ℕ) : Built c s.arena (s.builders b).lists (c.from b (s.builders b).i)

variable {s u : State τ}

theorem Inv.of_init (hi : (pcreate c A).init s) : Inv c s := by
  obtain ⟨-, hb⟩ := hi
  refine ⟨fun b => ?_, fun b => ?_, fun b => ?_⟩
  · simp [hb b]
  · rw [hb b]
    exact lo_le_lo c (show b ≤ b + 1 by omega)
  · rw [hb b]
    dsimp only
    rw [Config.from, Nat.sub_self]
    exact built_nil

theorem Inv.step {b : ℕ} (hI : Inv c s) (hs : (pcreate c A).step s b = some u) : Inv c u := by
  simp only [pcreate, BulkSpawn.step] at hs
  split at hs <;> cases hs
  next hb =>
    have hlow := hI.lower b
    have hnew := (hI.built b).append (i := (s.builders b).i) (by rw [mem_from hlow]; omega)
    -- the fibers of the other builders are not written to
    have hframe : ∀ b', b' ≠ b → ∀ j ∈ c.from b' (s.builders b').i,
        (append c s.arena (s.builders b).lists (s.builders b).i).1 j = s.arena j := by
      intro b' hb' j hj
      have hlow' := hI.lower b'
      have hup' := hI.upper b'
      rw [mem_from hlow'] at hj
      have hapart : j < c.lo b ∨ c.lo (b + 1) ≤ j := by
        rcases Nat.lt_or_gt_of_ne hb' with hlt | hlt
        · have := lo_le_lo c (show b' + 1 ≤ b from hlt)
          omega
        · have := lo_le_lo c (show b + 1 ≤ b' from hlt)
          omega
      refine (hI.built b).append_other _ ?_ ?_
      · rw [mem_from hlow]
        omega
      · omega
    refine ⟨fun b' => ?_, fun b' => ?_, fun b' => ?_⟩
    · by_cases hb' : b' = b
      · subst hb'
        simp only [update_self]
        omega
      · simp only [update_of_ne hb']
        exact hI.lower b'
    · by_cases hb' : b' = b
      · subst hb'
        simp only [update_self]
        omega
      · simp only [update_of_ne hb']
        exact hI.upper b'
    · by_cases hb' : b' = b
      · subst hb'
        simp only [update_self]
        rw [from_succ hlow]
        exact hnew
      · simp only [update_of_ne hb']
        exact (hI.built b').congr (hframe b' hb')

theorem inv_of_reachable (hs : (pcreate c A).Reachable s) : Inv c s :=
  hs.invariant (P := Inv c) (fun _ hi => .of_init hi) fun _ _ _ hI _ hs => hI.step hs

theorem merge_built (hH : 0 < c.H) (hI : Inv c s) (hJ : s.Joined c) (m : ℕ) (hm : m ≤ c.P) :
    let r := (List.range m).foldl (fun r b => mergeBuilder c r (s.builders b).lists) (s.arena, Lists.empty)
    Built c r.1 r.2 (List.range (c.lo m)) ∧ ∀ j, c.lo m ≤ j → r.1 j = s.arena j := by
  induction m with
  | zero =>
    have hzero : c.lo 0 = 0 := by rw [Config.lo, Nat.zero_mul, Nat.zero_div]
    rw [hzero]
    exact ⟨built_nil, fun _ _ => rfl⟩
  | succ m ih =>
    obtain ⟨hbuilt, hother⟩ := ih (by omega)
    simp only [range_succ, foldl_append, foldl_cons, foldl_nil]
    generalize (List.range m).foldl (fun r b => mergeBuilder c r (s.builders b).lists) (s.arena, Lists.empty) = r
      at hbuilt hother ⊢
    obtain ⟨A₁, L₁⟩ := r
    have hlow := hI.lower m
    have hend := hJ m (by omega)
    have hslice : Built c A₁ (s.builders m).lists (c.from m (c.lo (m + 1))) := by
      have hown := hI.built m
      rw [hend] at hown hlow
      exact hown.congr fun j hj => hother j ((mem_from hlow).mp hj).1
    have hdis : ∀ i ∈ List.range (c.lo m), i ∉ c.from m (c.lo (m + 1)) := by
      intro i hi hmem
      rw [mem_from (hend ▸ hlow)] at hmem
      have := mem_range.mp hi
      omega
    obtain ⟨hnew, hkeep⟩ := hbuilt.merge hH hslice hdis
    rw [range_append_from] at hnew
    refine ⟨hnew, fun j hj => ?_⟩
    have hle := lo_le_lo c (show m ≤ m + 1 by omega)
    rw [hkeep j (by rw [mem_range]; omega)]
    exact hother j (by omega)

/-! ## Both passes -/

theorem spells_next {next next' : ℕ → Option ℕ} (hl : Spells next l) (hl' : Spells next' l) (hi : i ∈ l) :
    next i = next' i := by
  induction l with
  | nil => exact absurd hi not_mem_nil
  | cons x l ih =>
    rcases mem_cons.mp hi with rfl | hi
    · exact hl.1.trans hl'.1.symm
    · exact ih hl.2 hl'.2 hi

theorem Built.eq (hB : Built c A L S) (hB' : Built c A' L' S) :
    (∀ h, L.heads h = L'.heads h ∧ L.tails h = L'.tails h ∧ L.counts h = L'.counts h) ∧ ∀ i ∈ S, A i = A' i := by
  refine ⟨fun h => ⟨?_, ?_, ?_⟩, fun i hi => ?_⟩
  · exact (hB.hubs h).head.trans (hB'.hubs h).head.symm
  · exact (hB.hubs h).tail.trans (hB'.hubs h).tail.symm
  · exact (hB.hubs h).count.trans (hB'.hubs h).count.symm
  · have hnext : (A i).next = (A' i).next :=
      spells_next (hB.hubs (c.hub i)).spells (hB'.hubs (c.hub i)).spells (mem_ofHub.mpr ⟨hi, rfl⟩)
    obtain ⟨htmpl, howner, hid, harg⟩ := hB.filled hi
    obtain ⟨htmpl', howner', hid', harg'⟩ := hB'.filled hi
    generalize A i = g at *
    generalize A' i = g' at *
    cases g
    cases g'
    simp_all

theorem perm_ofHub (hH : 0 < c.H) (n : ℕ) : ((List.range c.H).flatMap (ofHub c (List.range n))).Perm (List.range n) := by
  refine (perm_ext_iff_of_nodup ?_ nodup_range).mpr fun i => ?_
  · refine nodup_flatMap.mpr ⟨fun h _ => nodup_range.filter _, ?_⟩
    refine nodup_range.imp fun {h h'} hne => ?_
    intro i hi hi'
    exact hne ((mem_ofHub.mp hi).2.symm.trans (mem_ofHub.mp hi').2)
  · rw [mem_flatMap]
    constructor
    · rintro ⟨h, -, hi⟩
      exact (mem_ofHub.mp hi).1
    · intro hi
      exact ⟨c.hub i, mem_range.mpr (hub_lt hH i), mem_ofHub.mpr ⟨hi, rfl⟩⟩

structure SameLists (c : Config τ) (r r' : Arena τ × Lists) (l : ℕ → List ℕ) : Prop where
  lists (h : ℕ) : HubList r.1 r.2 h (l h) ∧ HubList r'.1 r'.2 h (l h)
  arrays (h : ℕ) : r.2.heads h = r'.2.heads h ∧ r.2.tails h = r'.2.tails h ∧ r.2.counts h = r'.2.counts h
  fibers (i : ℕ) (hi : i < c.n) : r.1 i = r'.1 i
  once : ((List.range c.H).flatMap l).Perm (List.range c.n)

/-- Whatever the order of the builders' turns, the merge is what the serial loop builds. -/
theorem bulk_parallel_eq_serial (c : Config τ) (A A' : Arena τ) (s : State τ) (hH : 0 < c.H) (hP : 0 < c.P)
    (hs : (pcreate c A).Reachable s) (hJ : s.Joined c) : ∃ l, SameLists c (merge c s) (serial c A') l := by
  have hserial : Built c (serial c A').1 (serial c A').2 (List.range c.n) := serial_built c A' c.n
  have hmerge : Built c (merge c s).1 (merge c s).2 (List.range c.n) := by
    have hbuilt := (merge_built hH (inv_of_reachable hs) hJ c.P (Nat.le_refl _)).1
    rw [lo_last hP] at hbuilt
    exact hbuilt
  obtain ⟨harrays, hfibers⟩ := hmerge.eq hserial
  exact ⟨ofHub c (List.range c.n), fun h => ⟨hmerge.hubs h, hserial.hubs h⟩, harrays,
    fun i hi => hfibers i (mem_range.mpr hi), perm_ofHub hH c.n⟩

def sevenFibers : Config Unit := ⟨7, 3, 2, true, 100, ()⟩

def blank : Arena Unit := fun _ => ⟨(), 0, 0, 0, none⟩

theorem bulk_parallel_eq_serial_sevenFibers :
    ∃ s, (pcreate sevenFibers blank).Reachable s ∧ s.Joined sevenFibers ∧
      ∃ l, SameLists sevenFibers (merge sevenFibers s) (serial sevenFibers blank) l := by
  obtain ⟨s, hs, hfirst, hsecond⟩ := (pcreate sevenFibers blank).reaches
    (fun s => (s.builders 0).i = 3 ∧ (s.builders 1).i = 7) [1, 0, 1, 1, 0, 0, 1]
    (s := ⟨blank, fun b => ⟨sevenFibers.lo b, .empty⟩⟩) ⟨rfl, fun _ => rfl⟩ (by decide +kernel)
  have hJ : s.Joined sevenFibers := by
    intro b hb
    have hb2 : b < 2 := hb
    obtain rfl | rfl : b = 0 ∨ b = 1 := by omega
    · exact hfirst
    · exact hsecond
  exact ⟨s, hs, hJ, bulk_parallel_eq_serial sevenFibers blank blank s (by decide) (by decide) hs hJ⟩

end Runloom.BulkSpawn
