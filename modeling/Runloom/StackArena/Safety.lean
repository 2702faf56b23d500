import Mathlib.Data.Finset.Card
import Runloom.StackArena.Model

/-!
# Stack slots are not shared

Every slot that is handed out has one owner: a single fiber, the pool of recycled coros, or a batch,
which owns its whole block until its last fiber has finished.  A fiber of a batch has no slot of its
own to give up; the result is about the runs in which none of them grows.
-/

namespace Runloom.StackArena

open Transition Bump List

variable {X B C : Type*}

inductive Owner (X B : Type*) where
  | single (x : X)
  | pooled
  | block (b : B)

def Owns (s : State X B C) : Owner X B → C → Nat → Prop
  | .single x, c, i => s.stack (.single x) = some (.slot c i)
  | .pooled, c, i => (c, i) ∈ s.pool
  | .block b, c, i =>
    ∃ t, s.batch b = some t ∧ t.cls = c ∧ t.startSlot ≤ i ∧ i < t.startSlot + t.nslots

def unfinished (stack : Fiber X B → Option (Stack C)) (b : B) (n : Nat) : Finset Nat :=
  (Finset.range n).filter fun k => (stack (.member b k)).isSome

theorem mem_unfinished {stack : Fiber X B → Option (Stack C)} {b : B} {n k : Nat} :
    k ∈ unfinished stack b n ↔ k < n ∧ (stack (.member b k)).isSome = true := by
  unfold unfinished
  rw [Finset.mem_filter, Finset.mem_range]

/-- The fibers of a batch are on the slots of its block, and the batch counts them. -/
structure Members (stack : Fiber X B → Option (Stack C)) (batch : B → Option (Batch C)) : Prop where
  alive : ∀ b k, stack (.member b k) ≠ none → ∃ t, batch b = some t ∧ k < t.nslots
  slot : ∀ b k c i t, stack (.member b k) = some (.slot c i) → batch b = some t → t.cls = c ∧ i = t.startSlot + k
  count : ∀ b t, batch b = some t → t.live = (unfinished stack b t.nslots).card

structure Inv (s : State X B C) : Prop where
  owned : Owned s.cursor s.out (Owns s)
  once : s.twice = []
  mapped : s.unmapped = []
  nodup : s.pool.Nodup
  members : Members s.stack s.batch

def onSlot : Option (Stack C) → Bool
  | some (.slot _ _) => true
  | _ => false

/-- A step does not grow a fiber of a batch that is on the slot of its block. -/
def Steady (s : State X B C) : Action X B C → Prop
  | .grow (.member b k) => onSlot (s.stack (.member b k)) = false
  | _ => True

instance (s : State X B C) : ∀ a, Decidable (Steady s a)
  | .grow (.member b k) => inferInstanceAs (Decidable (onSlot (s.stack (.member b k)) = false))
  | .grow (.single _) | .spawn .. | .recycle .. | .bulk .. | .finish _ | .flush .. | .release _ =>
    .isTrue trivial

variable {s s' : State X B C} {cap : C → Nat} {on : Bool}

theorem Inv.init (h : Init s) : Inv s where
  owned := by
    have howns : ∀ o c i, ¬Owns s o c i := by
      intro o c i ho
      cases o with
      | single x =>
        rw [Owns, h.stack] at ho
        cases ho
      | pooled =>
        rw [Owns, h.pool] at ho
        cases ho
      | block b =>
        obtain ⟨t, ht, -⟩ := ho
        rw [h.batch] at ht
        cases ht
    refine ⟨fun c => ?_, fun o c i ho => (howns o c i ho).elim, fun o _ c i ho => (howns o c i ho).elim⟩
    rw [h.cursor, h.out]
    exact ok_empty
  once := h.twice
  mapped := h.unmapped
  nodup := by
    rw [h.pool]
    exact nodup_nil
  members := by
    refine ⟨fun b k hk => absurd (h.stack _) hk, fun b k c i t hk => ?_, fun b t ht => ?_⟩
    · rw [h.stack] at hk
      cases hk
    · rw [h.batch] at ht
      cases ht

theorem Members.congr {stack stack' : Fiber X B → Option (Stack C)} {batch : B → Option (Batch C)}
    (h : Members stack batch) (hs : ∀ b k, stack' (.member b k) = stack (.member b k)) :
    Members stack' batch where
  alive b k hk := by
    rw [hs] at hk
    exact h.alive b k hk
  slot b k c i t hk := by
    rw [hs] at hk
    exact h.slot b k c i t hk
  count b t ht := by
    rw [h.count b t ht]
    unfold unfinished
    simp only [hs]

/-! ## What the invariant says -/

variable {c : C} {i : Nat}

theorem Inv.block_of_member (hI : Inv s) {b : B} {k : Nat}     (hk : s.stack (.member b k) = some (.slot c i)) :
    Owns s (.block b) c i ∧ ∃ t, s.batch b = some t ∧ i = t.startSlot + k := by
  have hne : s.stack (.member b k) ≠ none := by
    rw [hk]
    nofun
  obtain ⟨t, ht, hkn⟩ := hI.members.alive b k hne
  obtain ⟨hcls, hi⟩ := hI.members.slot b k c i t hk ht
  exact ⟨⟨t, ht, hcls, by omega, by omega⟩, t, ht, hi⟩

variable {f : Fiber X B}

theorem Inv.disjoint (hI : Inv s) {g : Fiber X B}     (hf : s.stack f = some (.slot c i)) (hg : s.stack g = some (.slot c i)) : f = g := by
  cases f with
  | single x =>
    cases g with
    | single y =>
      cases hI.owned.unique (.single x) (.single y) c i hf hg
      rfl
    | member b k =>
      cases hI.owned.unique (.single x) (.block b) c i hf (hI.block_of_member hg).1
  | member b k =>
    obtain ⟨hown, t, ht, hi⟩ := hI.block_of_member hf
    cases g with
    | single y => cases hI.owned.unique (.single y) (.block b) c i hg hown
    | member b' k' =>
      obtain ⟨hown', t', ht', hi'⟩ := hI.block_of_member hg
      cases hI.owned.unique (.block b) (.block b') c i hown hown'
      rw [ht] at ht'
      cases ht'
      obtain rfl : k = k' := by omega
      rfl

theorem Inv.below (hI : Inv s)     (hf : s.stack f = some (.slot c i)) : i < (s.cursor c).next := by
  cases f with
  | single x =>
    have hown : Owns s (.single x) c i := hf
    exact hI.owned.below hown
  | member b k => exact hI.owned.below (hI.block_of_member hf).1

def SlotsDisjoint (s : State X B C) : Prop :=
  (∀ f g c i, s.stack f = some (.slot c i) → s.stack g = some (.slot c i) → f = g) ∧
  ∀ f c i, s.stack f = some (.slot c i) → i < (s.cursor c).next

variable [DecidableEq X] [DecidableEq B] [DecidableEq C]

/-! ## Steps -/

section

omit [DecidableEq C]

theorem Members.setSingle (h : Members s.stack s.batch) (x : X) (k : Option (Stack C)) :
    Members (s.setStack (.single x) k).stack s.batch := by
  apply h.congr
  intro b j
  have hne : Fiber.member (X := X) b j ≠ .single x := nofun
  exact update_of_ne hne k s.stack

theorem owns_setStack {o : Owner X B} {x : X} {k : Option (Stack C)}     (h : Owns (s.setStack (.single x) k) o c i) :
    Owns s o c i ∧ o ≠ .single x ∨ o = .single x ∧ k = some (.slot c i) := by
  cases o with
  | single y =>
    by_cases hy : y = x
    · subst hy
      simp only [Owns, State.setStack, update_self] at h
      exact .inr ⟨rfl, h⟩
    · have hne : Fiber.single (B := B) y ≠ .single x := fun h => hy (Fiber.single.inj h)
      simp only [Owns, State.setStack, update_of_ne hne] at h
      exact .inl ⟨h, fun h => hy (Owner.single.inj h)⟩
  | pooled | block b => exact .inl ⟨h, nofun⟩

end

omit [DecidableEq X] [DecidableEq B] in
theorem twice_arenaFree {start n : Nat} (h : ∀ i, start ≤ i → i < start + n → i ∈ s.out c) :
    (s.arenaFree c start n).twice = s.twice := by
  have hnil : ((List.range' start n).filter fun i => decide (i ∉ s.out c)) = [] := by
    rw [filter_eq_nil_iff]
    intro i hi
    rw [mem_range'_1] at hi
    simp only [decide_eq_true_iff, not_not]
    exact h i hi.1 hi.2
  simp only [State.arenaFree, hnil, map_nil, append_nil]

theorem Inv.acquire (hI : Inv s) {x : X} {mapped : Bool} : Inv (s.acquire cap on x c mapped) := by
  unfold State.acquire
  split
  · refine ⟨?_, hI.once, hI.mapped, hI.nodup, hI.members.setSingle x _⟩
    apply hI.owned.alloc (o := .single x)
    intro q d j hq
    rcases owns_setStack hq with hq | ⟨rfl, hk⟩
    · exact .inl hq.1
    · cases hk
      exact .inr ⟨rfl, rfl, Nat.le_refl _, Nat.lt_succ_self _⟩
  · refine ⟨?_, hI.once, hI.mapped, hI.nodup, hI.members.setSingle x _⟩
    apply hI.owned.mono
    intro q d j hq
    rcases owns_setStack hq with hq | ⟨-, hk⟩
    · exact hq.1
    · cases hk

omit [DecidableEq X] [DecidableEq B] in
theorem owns_pool_erase {o : Owner X B} {d : C} {j : Nat} (hn : s.pool.Nodup)
    (h : Owns { s with pool := s.pool.erase (c, i) } o d j) :
    Owns s o d j ∧ ¬(o = .pooled ∧ d = c ∧ j = i) := by
  cases o with
  | single x => exact ⟨h, nofun⟩
  | pooled =>
    have hmem : (d, j) ∈ s.pool.erase (c, i) := h
    refine ⟨mem_of_mem_erase hmem, ?_⟩
    rintro ⟨-, rfl, rfl⟩
    exact hn.not_mem_erase hmem
  | block b => exact ⟨h, nofun⟩

section

variable (hI : Inv s)
include hI

theorem Inv.recycle {x : X} (hp : (c, i) ∈ s.pool) :
    Inv ({ s with pool := s.pool.erase (c, i) }.setStack (.single x) (some (.slot c i))) := by
  refine ⟨?_, hI.once, hI.mapped, hI.nodup.erase _, hI.members.setSingle x _⟩
  have hpool : Owns s .pooled c i := hp
  apply hI.owned.transfer hpool (p := .single x)
  intro q d j hq
  rcases owns_setStack hq with hq | ⟨rfl, hk⟩
  · exact .inl (owns_pool_erase hI.nodup hq.1)
  · cases hk
    exact .inr ⟨rfl, rfl, rfl⟩

omit [DecidableEq X] [DecidableEq B] in
theorem Inv.flush (hp : (c, i) ∈ s.pool) : Inv ({ s with pool := s.pool.erase (c, i) }.arenaFree c i 1) := by
  have hout : ∀ j, i ≤ j → j < i + 1 → Owns s .pooled c j := by
    intro j hj hj'
    obtain rfl : j = i := by omega
    exact hp
  refine ⟨?_, ?_, hI.mapped, hI.nodup.erase _, hI.members⟩
  · apply hI.owned.free hout
    intro q d j hq
    obtain ⟨hq', hne⟩ := owns_pool_erase (s := s) hI.nodup hq
    refine ⟨hq', ?_⟩
    rintro ⟨rfl, hj, hj'⟩
    -- The slot was the pool's.
    have hqp := hI.owned.unique q .pooled d j hq' (hout j hj hj')
    exact hne ⟨hqp, rfl, by omega⟩
  · apply Eq.trans (twice_arenaFree _) hI.once
    exact fun j hj hj' => hI.owned.out .pooled c j (hout j hj hj')

section

omit [DecidableEq X]

theorem Inv.bulkInit {b : B} {n : Nat} (hb : s.batch b = none) : Inv (s.bulkInit b c n) := by
  have hold : ∀ k, s.stack (.member b k) = none := by
    intro k
    by_contra hk
    obtain ⟨t, ht, -⟩ := hI.members.alive b k hk
    rw [hb] at ht
    cases ht
  refine ⟨?_, hI.once, hI.mapped, hI.nodup, ⟨?_, ?_, ?_⟩⟩
  · apply hI.owned.alloc (o := .block b)
    intro q d j hq
    cases q with
    | single x | pooled => exact .inl hq
    | block b' =>
      obtain ⟨t, ht, hcls, hj⟩ := hq
      simp only [State.bulkInit] at ht
      by_cases hbb : b' = b
      · subst hbb
        rw [update_self] at ht
        cases ht
        exact .inr ⟨rfl, hcls.symm, hj⟩
      · rw [update_of_ne hbb] at ht
        exact .inl ⟨t, ht, hcls, hj⟩
  · intro b' k hk
    simp only [State.bulkInit] at hk ⊢
    by_cases hbb : b' = b
    · subst hbb
      rw [update_self]
      refine ⟨_, rfl, ?_⟩
      by_contra hkn
      rw [if_neg fun h => hkn h.2] at hk
      exact hk (hold k)
    · rw [if_neg fun h => hbb h.1] at hk
      rw [update_of_ne hbb]
      exact hI.members.alive b' k hk
  · intro b' k d i t hk ht
    simp only [State.bulkInit] at hk ht
    by_cases hbb : b' = b
    · subst hbb
      rw [update_self] at ht
      cases ht
      split at hk
      · cases hk
        exact ⟨rfl, rfl⟩
      · rw [hold k] at hk
        cases hk
    · rw [if_neg fun h => hbb h.1] at hk
      rw [update_of_ne hbb] at ht
      exact hI.members.slot b' k d i t hk ht
  · intro b' t ht
    simp only [State.bulkInit] at ht ⊢
    by_cases hbb : b' = b
    · subst hbb
      rw [update_self] at ht
      cases ht
      have hall : unfinished (s.bulkInit b' c n).stack b' n = Finset.range n := by
        unfold unfinished
        rw [Finset.filter_eq_self]
        intro k hk
        simp only [State.bulkInit]
        rw [if_pos ⟨trivial, Finset.mem_range.mp hk⟩]
        rfl
      show n = (unfinished (s.bulkInit b' c n).stack b' n).card
      rw [hall, Finset.card_range]
    · rw [update_of_ne hbb] at ht
      rw [hI.members.count b' t ht]
      unfold unfinished
      simp only [if_neg fun h : b' = b ∧ _ => hbb h.1]

theorem Inv.release {b : B} {t : Batch C} (hb : s.batch b = some t) (hlive : t.live = 0) :
    Inv ({ s with batch := Function.update s.batch b none }.arenaFree t.cls t.startSlot t.nslots) := by
  have hout : ∀ j, t.startSlot ≤ j → j < t.startSlot + t.nslots → Owns s (.block b) t.cls j :=
    fun j hj hj' => ⟨t, hb, rfl, hj, hj'⟩
  -- No fiber of the batch is left.
  have hgone : ∀ k, s.stack (.member b k) = none := by
    intro k
    by_contra hk
    obtain ⟨t', ht', hkn⟩ := hI.members.alive b k hk
    rw [hb] at ht'
    cases ht'
    have hcard := hI.members.count b t hb
    rw [hlive] at hcard
    have hempty := Finset.card_eq_zero.mp hcard.symm
    have hmem : k ∈ unfinished s.stack b t.nslots :=
      mem_unfinished.mpr ⟨hkn, Option.isSome_iff_ne_none.mpr hk⟩
    rw [hempty] at hmem
    cases hmem
  refine ⟨?_, ?_, hI.mapped, hI.nodup, ⟨?_, ?_, ?_⟩⟩
  · apply hI.owned.free hout
    intro q d j hq
    have hq' : Owns s q d j ∧ q ≠ .block b := by
      cases q with
      | single x | pooled => exact ⟨hq, nofun⟩
      | block b' =>
        obtain ⟨t', ht', hcls, hj⟩ := hq
        simp only [State.arenaFree] at ht'
        have hbb : b' ≠ b := by
          rintro rfl
          rw [update_self] at ht'
          cases ht'
        rw [update_of_ne hbb] at ht'
        exact ⟨⟨t', ht', hcls, hj⟩, fun h => hbb (Owner.block.inj h)⟩
    refine ⟨hq'.1, ?_⟩
    rintro ⟨rfl, hj, hj'⟩
    exact hq'.2 (hI.owned.unique _ _ _ _ hq'.1 (hout j hj hj'))
  · apply Eq.trans (twice_arenaFree _) hI.once
    exact fun j hj hj' => hI.owned.out _ _ _ (hout j hj hj')
  · intro b' k hk
    have hbb : b' ≠ b := by
      rintro rfl
      exact hk (hgone k)
    simp only [State.arenaFree, update_of_ne hbb]
    exact hI.members.alive b' k hk
  · intro b' k d i t' hk ht'
    have hbb : b' ≠ b := by
      rintro rfl
      have hnone := hgone k
      rw [show s.stack (.member b' k) = some (.slot d i) from hk] at hnone
      cases hnone
    simp only [State.arenaFree, update_of_ne hbb] at ht'
    exact hI.members.slot b' k d i t' hk ht'
  · intro b' t' ht'
    have hbb : b' ≠ b := by
      rintro rfl
      simp only [State.arenaFree, update_self] at ht'
      cases ht'
    simp only [State.arenaFree, update_of_ne hbb] at ht'
    exact hI.members.count b' t' ht'

end

theorem Inv.growSingle {x : X} (hx : s.stack (.single x) = some (.slot c i)) :
    Inv ((s.arenaFree c i 1).setStack (.single x) (some .standalone)) := by
  have hout : ∀ j, i ≤ j → j < i + 1 → Owns s (.single x) c j := by
    intro j hj hj'
    obtain rfl : j = i := by omega
    exact hx
  refine ⟨?_, ?_, hI.mapped, hI.nodup, hI.members.setSingle x _⟩
  · apply hI.owned.free hout
    intro q d j hq
    rcases owns_setStack (s := s.arenaFree c i 1) hq with ⟨hq', hne⟩ | ⟨-, hk⟩
    · have hq'' : Owns s q d j := by
        cases q <;> exact hq'
      refine ⟨hq'', ?_⟩
      rintro ⟨rfl, hj, hj'⟩
      exact hne (hI.owned.unique q (.single x) d j hq'' (hout j hj hj'))
    · cases hk
  · apply Eq.trans (twice_arenaFree _) hI.once
    exact fun j hj hj' => hI.owned.out _ _ _ (hout j hj hj')

omit [DecidableEq C] in
theorem Inv.growStandalone (hf : s.stack f = some .standalone) : Inv (s.setStack f (some .standalone)) := by
  have hsame : s.setStack f (some .standalone) = s := by
    unfold State.setStack
    rw [← hf, update_eq_self]
  rw [hsame]
  exact hI

end

def Off (on : Bool) (s : State X B C) : Prop :=
  on = false → (∀ x c i, s.stack (.single x) ≠ some (.slot c i)) ∧ s.pool = []

theorem Inv.grow (hI : Inv s) (hoff : Off on s) {k : Stack C}
    (hf : s.stack f = some k) (hC : Steady s (.grow f)) : Inv (s.grow on f k) := by
  cases k with
  | standalone => exact hI.growStandalone hf
  | slot c i =>
    cases f with
    | member b j =>
      simp only [Steady, hf] at hC
      cases hC
    | single x =>
      cases on with
      | true => exact hI.growSingle hf
      | false => exact absurd hf ((hoff rfl).1 x c i)

section

omit [DecidableEq C]

theorem Inv.finishSingle (hI : Inv s) {x : X} {k : Stack C} (hx : s.stack (.single x) = some k) :
    Inv (s.finish (.single x) k) := by
  cases k with
  | standalone =>
    refine ⟨?_, hI.once, hI.mapped, hI.nodup, hI.members.setSingle x _⟩
    apply hI.owned.mono
    intro q d j hq
    rcases owns_setStack hq with hq | ⟨-, hk⟩
    · exact hq.1
    · cases hk
  | slot c i =>
    have howns : Owns s (.single x) c i := hx
    refine ⟨?_, hI.once, hI.mapped, ?_, hI.members.setSingle x _⟩
    · apply hI.owned.transfer howns (p := .pooled)
      intro q d j hq
      rcases owns_setStack hq with ⟨hq', hne⟩ | ⟨-, hk⟩
      · cases q with
        | single y => exact .inl ⟨hq', fun h => hne h.1⟩
        | block b => exact .inl ⟨hq', nofun⟩
        | pooled =>
          rcases mem_cons.mp hq' with h | h
          · cases h
            exact .inr ⟨rfl, rfl, rfl⟩
          · exact .inl ⟨h, nofun⟩
      · cases hk
    · refine nodup_cons.mpr ⟨fun hmem => ?_, hI.nodup⟩
      cases hI.owned.unique (.single x) .pooled c i howns hmem

theorem Inv.finishMember (hI : Inv s) {b : B} {k : Nat} {q : Stack C}
    (hk : s.stack (.member b k) = some q) : Inv (s.finish (.member b k) q) := by
  have hkne : s.stack (.member b k) ≠ none := by
    rw [hk]
    nofun
  obtain ⟨t, ht, hkn⟩ := hI.members.alive b k hkne
  have hbatch : ∀ b' t', (s.finish (.member b k) q).batch b' = some t' →
      ∃ t₀, s.batch b' = some t₀ ∧ t'.cls = t₀.cls ∧ t'.startSlot = t₀.startSlot ∧ t'.nslots = t₀.nslots := by
    intro b' t' ht'
    simp only [State.finish, State.setStack] at ht'
    by_cases hbb : b' = b
    · subst hbb
      rw [update_self, ht] at ht'
      cases ht'
      exact ⟨t, ht, rfl, rfl, rfl⟩
    · rw [update_of_ne hbb] at ht'
      exact ⟨t', ht', rfl, rfl, rfl⟩
  have hstack : ∀ b' j p, (s.finish (.member b k) q).stack (.member b' j) = some p →
      s.stack (.member b' j) = some p := by
    intro b' j p hj
    simp only [State.finish, State.setStack] at hj
    by_cases hf : Fiber.member (X := X) b' j = .member b k
    · rw [hf, update_self] at hj
      cases hj
    · rw [update_of_ne hf] at hj
      exact hj
  refine ⟨?_, hI.once, hI.mapped, hI.nodup, ⟨?_, ?_, ?_⟩⟩
  · apply hI.owned.mono
    intro o d j ho
    cases o with
    | single x =>
      have hne : Fiber.single (B := B) x ≠ .member b k := nofun
      simp only [Owns, State.finish, State.setStack, update_of_ne hne] at ho
      exact ho
    | pooled => exact ho
    | block b' =>
      obtain ⟨t', ht', hcls, hj⟩ := ho
      obtain ⟨t₀, ht₀, h1, h2, h3⟩ := hbatch b' t' ht'
      exact ⟨t₀, ht₀, h1 ▸ hcls, h2 ▸ h3 ▸ hj⟩
  · intro b' j hj
    obtain ⟨p, hp⟩ := Option.ne_none_iff_exists'.mp hj
    have hold : s.stack (.member b' j) ≠ none := by
      rw [hstack b' j p hp]
      nofun
    obtain ⟨t₀, ht₀, hjn⟩ := hI.members.alive b' j hold
    simp only [State.finish, State.setStack]
    by_cases hbb : b' = b
    · subst hbb
      rw [update_self, ht₀]
      exact ⟨_, rfl, hjn⟩
    · rw [update_of_ne hbb]
      exact ⟨t₀, ht₀, hjn⟩
  · intro b' j d i t' hj ht'
    obtain ⟨t₀, ht₀, h1, h2, -⟩ := hbatch b' t' ht'
    obtain ⟨hcls, hi⟩ := hI.members.slot b' j d i t₀ (hstack b' j _ hj) ht₀
    exact ⟨h1.trans hcls, h2 ▸ hi⟩
  · intro b' t' ht'
    by_cases hbb : b' = b
    · subst hbb
      simp only [State.finish, State.setStack, update_self, ht] at ht'
      cases ht'
      have herase : unfinished (s.finish (.member b' k) q).stack b' t.nslots =
          (unfinished s.stack b' t.nslots).erase k := by
        ext j
        rw [Finset.mem_erase, mem_unfinished, mem_unfinished]
        simp only [State.finish, State.setStack]
        by_cases hjk : j = k
        · subst hjk
          rw [update_self]
          exact ⟨fun h => (nomatch h.2), fun h => (h.1 rfl).elim⟩
        · have hne : Fiber.member (X := X) b' j ≠ .member b' k :=
            fun h => hjk (Fiber.member.inj h).2
          rw [update_of_ne hne]
          exact ⟨fun h => ⟨hjk, h⟩, fun h => h.2⟩
      have hmem : k ∈ unfinished s.stack b' t.nslots :=
        mem_unfinished.mpr ⟨hkn, Option.isSome_iff_ne_none.mpr hkne⟩
      show t.live - 1 = (unfinished (s.finish (.member b' k) q).stack b' t.nslots).card
      rw [herase, Finset.card_erase_of_mem hmem, hI.members.count b' t ht]
    · simp only [State.finish, State.setStack, update_of_ne hbb] at ht'
      rw [hI.members.count b' t' ht']
      unfold unfinished
      congr 1
      apply Finset.filter_congr
      intro j _
      have hne : Fiber.member (X := X) b' j ≠ .member b k := fun h => hbb (Fiber.member.inj h).1
      simp only [State.finish, State.setStack, update_of_ne hne]

end

theorem Inv.step (hI : Inv s) (hoff : Off on s) {a : Action X B C} (hC : Steady s a)
    (h : step cap on s a = some s') : Inv s' := by
  cases a with
  | spawn x c mapped =>
    simp only [StackArena.step] at h
    split at h <;> cases h
    exact hI.acquire
  | recycle x c i =>
    simp only [StackArena.step] at h
    split at h
    · split at h <;> cases h
      next hp => exact hI.recycle hp
    · cases h
  | bulk b c n =>
    simp only [StackArena.step] at h
    split at h
    next hb =>
      split at h <;> cases h
      exact hI.bulkInit hb
    next => cases h
  | grow f =>
    obtain ⟨k, hf, rfl⟩ := Option.map_eq_some_iff.mp h
    exact hI.grow hoff hf hC
  | finish f =>
    obtain ⟨k, hf, rfl⟩ := Option.map_eq_some_iff.mp h
    cases f with
    | single x => exact hI.finishSingle hf
    | member b j => exact hI.finishMember hf
  | flush c i =>
    simp only [StackArena.step] at h
    split at h <;> cases h
    next hp => exact hI.flush hp
  | release b =>
    simp only [StackArena.step] at h
    split at h
    next t hb =>
      split at h <;> cases h
      next hlive => exact hI.release hb hlive
    next => cases h

omit [DecidableEq C] in
theorem Off.setStack (h : Off on s) {k : Option (Stack C)}
    (hk : ∀ c i, k ≠ some (.slot c i)) : Off on (s.setStack f k) := by
  intro hon
  refine ⟨fun x c i hx => ?_, (h hon).2⟩
  simp only [State.setStack] at hx
  by_cases hf : Fiber.single x = f
  · rw [hf, update_self] at hx
    exact hk c i hx
  · rw [update_of_ne hf] at hx
    exact (h hon).1 x c i hx

theorem Off.step (h : Off on s) {a : Action X B C} (ha : step cap on s a = some s') : Off on s' := by
  intro hon
  subst hon
  have hnone := h rfl
  cases a with
  | spawn x c mapped =>
    simp only [StackArena.step] at ha
    split at ha <;> cases ha
    exact h.setStack nofun rfl
  | recycle x c i =>
    simp only [StackArena.step, hnone.2] at ha
    split at ha
    · split at ha
      next hp => cases hp
      next => cases ha
    · cases ha
  | bulk b c n | release b =>
    simp only [StackArena.step] at ha
    split at ha
    · split at ha <;> cases ha
      exact hnone
    · cases ha
  | grow f =>
    obtain ⟨k, hf, rfl⟩ := Option.map_eq_some_iff.mp ha
    cases k with
    | standalone => exact h.setStack nofun rfl
    | slot c i =>
      have hgrown : Off false { s with unmapped := s.unmapped ++ [(c, i)] } := h
      exact hgrown.setStack nofun rfl
  | finish f =>
    obtain ⟨k, hf, rfl⟩ := Option.map_eq_some_iff.mp ha
    cases f with
    | single x =>
      cases k with
      | standalone => exact h.setStack nofun rfl
      | slot c i => exact absurd hf (hnone.1 x c i)
    | member b j =>
      have hbatch : Off false { s with batch := Function.update s.batch b ((s.batch b).map Batch.finishOne) } := h
      exact hbatch.setStack nofun rfl
  | flush c i =>
    simp only [StackArena.step, hnone.2] at ha
    split at ha
    next hp => cases hp
    next => cases ha

theorem inv_of_reachable (h : (arena cap on).ReachableWith Steady s) : Inv s ∧ Off on s := by
  apply h.invariant (P := fun s => Inv s ∧ Off on s)
  · intro s hs
    refine ⟨Inv.init hs, fun _ => ⟨fun x c i hx => ?_, hs.pool⟩⟩
    rw [hs.stack] at hx
    cases hx
  · exact fun _ _ _ hI hC hs => ⟨hI.1.step hI.2 hC hs, hI.2.step hs⟩

/-- As long as no fiber of a batch grows on the slot of its block, no slot is shared, given back twice or unmapped. -/
theorem slots_not_shared (h : (arena cap on).ReachableWith Steady s) :
    SlotsDisjoint s ∧ (∀ c, (s.cursor c).live = (s.out c).length ∧ (s.out c).Nodup) ∧ s.twice = [] ∧
      s.unmapped = [] := by
  obtain ⟨hI, -⟩ := inv_of_reachable h
  refine ⟨⟨fun _ _ _ _ => hI.disjoint, fun _ _ _ => hI.below⟩, fun c => ?_, hI.once, hI.mapped⟩
  exact ⟨(hI.owned.ok c).live, (hI.owned.ok c).nodup⟩

/-- A batch, a single fiber that grows, and a recycled stack. -/
theorem slots_not_shared_mixed :
    ∃ s : State (Fin 2) (Fin 1) Unit, (arena (fun _ => 8) true).ReachableWith Steady s ∧
      s.stack (.member 0 1) = some (.slot () 2) ∧ s.stack (.single 1) = some (.slot () 0) ∧
      (s.cursor ()).live = (s.out ()).length := by
  obtain ⟨s, hr, hm, hs⟩ := (arena (X := Fin 2) (B := Fin 1) (C := Unit) (fun _ => 8) true).reachesWith Steady
    (fun s => s.stack (.member 0 1) = some (.slot () 2) ∧ s.stack (.single 1) = some (.slot () 0))
    [.spawn 0 () true, .bulk 0 () 2, .finish (.single 0), .recycle 1 () 0, .spawn 0 () true,
      .grow (.single 0), .finish (.member 0 0)]
    ⟨fun _ => rfl, fun _ => rfl, fun _ => rfl, rfl, fun _ => rfl, rfl, rfl⟩
    (s := ⟨fun _ => ⟨0, 0⟩, fun _ => none, fun _ => none, [], fun _ => [], [], []⟩)
    (by decide +kernel)
  exact ⟨s, hr, hm, hs, ((slots_not_shared hr).2.1 ()).1⟩

/-- A fiber of a batch grows: its slot is given back twice, and the next fibers share a stack. -/
theorem batch_growth_shares_slot :
    (¬∀ s : State (Fin 3) (Fin 2) Unit, (arena (fun _ => 8) true).Reachable s → SlotsDisjoint s) ∧
    ¬∀ s : State (Fin 3) (Fin 2) Unit, (arena (fun _ => 8) false).Reachable s → s.unmapped = [] := by
  constructor
  · intro hclaim
    obtain ⟨s, hr, hm, hs⟩ := (arena (X := Fin 3) (B := Fin 2) (C := Unit) (fun _ => 8) true).reaches
      (fun s => s.stack (.member 1 0) = some (.slot () 2) ∧ s.stack (.single 2) = some (.slot () 2))
      [.bulk 0 () 2, .bulk 1 () 1, .grow (.member 0 0), .finish (.member 0 0), .finish (.member 0 1),
        .release 0, .spawn 0 () true, .spawn 1 () true, .spawn 2 () true]
      ⟨fun _ => rfl, fun _ => rfl, fun _ => rfl, rfl, fun _ => rfl, rfl, rfl⟩
      (s := ⟨fun _ => ⟨0, 0⟩, fun _ => none, fun _ => none, [], fun _ => [], [], []⟩) (by decide +kernel)
    cases (hclaim s hr).1 _ _ _ _ hm hs
  · intro hclaim
    obtain ⟨s, hr, hne⟩ := (arena (X := Fin 3) (B := Fin 2) (C := Unit) (fun _ => 8) false).reaches
      (fun s => s.unmapped = [((), 0)])
      [.bulk 0 () 2, .grow (.member 0 0)]
      ⟨fun _ => rfl, fun _ => rfl, fun _ => rfl, rfl, fun _ => rfl, rfl, rfl⟩
      (s := ⟨fun _ => ⟨0, 0⟩, fun _ => none, fun _ => none, [], fun _ => [], [], []⟩) (by decide +kernel)
    rw [hclaim s hr] at hne
    cases hne

end Runloom.StackArena
