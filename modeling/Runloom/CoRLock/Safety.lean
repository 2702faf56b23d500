import Runloom.CoRLock.Model

/-!
# One party has the inner lock

`_owner` and `_count` are written by the party that has the inner lock, and read by everybody.  A party that has not
the inner lock can see the name of another, or none, but never its own; so it takes itself for the owner only when it
is.
-/

namespace Runloom.CoRLock

open Transition

variable {P : Type*}

def Pc.inside : Pc P → Bool
  | .setOwner | .setCount | .restCount _ _ | .restOwner _ _ => true
  | _ => false

/-- `_owner` has the name of the party, if that has the inner lock. -/
def Pc.named : Pc P → Bool
  | .setOwner | .unlock | .saveUnlock _ _ | .restCount _ _ | .restOwner _ _ => false
  | _ => true

def Inner (y : Party P) : Prop := 0 < y.depth ∨ y.pc.inside = true

/-- What `p` gave out is its own. -/
def Ticket.Own (p : P) (t : Ticket P) : Prop := t.count = t.depth ∧ 0 < t.depth ∧ t.owner = some p

/-- What the party knows of `_count`. -/
def Pc.Knows (p : P) (count : ℤ) (depth : ℕ) : Pc P → Prop
  | .done (.restored c o) => c = depth ∧ 0 < depth ∧ o = some p ∧ count = depth
  | .idle | .done _ | .isNone _ | .isCur _ | .relOwner | .saveCheck => 0 < depth → count = depth
  | .bumpRead | .decRead | .saveCount => 0 < depth ∧ count = depth
  | .bumpWrite n | .decWrite n => 0 < depth ∧ n = depth
  | .inner _ | .setOwner | .setCount => depth = 0
  | .isZero => 0 < depth ∧ count + 1 = depth
  | .clearOwner | .unlock => depth = 1 ∧ count = 0
  | .saveOwner c => 0 < depth ∧ c = depth
  | .saveZero c o => 0 < depth ∧ c = depth ∧ o = some p
  | .saveClear c o | .saveUnlock c o => 0 < depth ∧ c = depth ∧ o = some p ∧ count = 0
  | .restInner c o => (0 < depth → count = depth) ∧ 0 < c ∧ o = some p
  | .restCount c o => depth = 0 ∧ 0 < c ∧ o = some p
  | .restOwner c o => depth = 0 ∧ 0 < c ∧ o = some p ∧ count = c

structure Good (p : P) (count : ℤ) (y : Party P) : Prop where
  knows : y.pc.Knows p count y.depth
  tickets : ∀ t ∈ y.tickets, t.Own p

variable {p q : P} {count count' : ℤ} {x x' : Shared P} {y y' : Party P} {s s' : State P}

theorem depth_of_not_inner (h : ¬Inner y) : y.depth = 0 := Nat.eq_zero_of_not_pos fun hpos => h (.inl hpos)

theorem Good.of_not_inner (h : Good p count y) (hy : ¬Inner y) : Good p count' y := by
  refine ⟨?_, h.tickets⟩
  have hknows := h.knows
  have hdepth := depth_of_not_inner hy
  have hzero : ∀ c : ℤ, 0 < 0 → c = (0 : ℕ) := fun c h => absurd h (Nat.lt_irrefl 0)
  have hnot : ∀ {a : Prop}, 0 < 0 ∧ a → False := fun h => Nat.lt_irrefl 0 h.1
  rw [hdepth] at hknows ⊢
  cases hpc : y.pc with
  | done r =>
    rw [hpc] at hknows
    cases r with
    | restored c o => exact absurd hknows.2.1 (Nat.lt_irrefl 0)
    | _ => exact hzero _
  | idle | isNone m | isCur m | relOwner | saveCheck => exact hzero _
  | inner m => rfl
  | restInner c o =>
    rw [hpc] at hknows
    exact ⟨hzero _, hknows.2⟩
  | clearOwner | unlock =>
    rw [hpc] at hknows
    cases hknows.1
  | setOwner | setCount | restCount c o | restOwner c o => exact absurd (.inr (by rw [hpc]; rfl)) hy
  | _ =>
    rw [hpc] at hknows
    exact (hnot hknows).elim

def Free (s : State P) : Prop := (∀ p, ¬Inner (s.party p)) ∧ s.shared = ⟨none, 0, false⟩

/-- `p` and no other has it. -/
structure HeldBy (s : State P) (p : P) : Prop where
  inner : Inner (s.party p)
  only : ∀ q, Inner (s.party q) → q = p
  locked : s.shared.locked = true
  owner : s.shared.owner = if (s.party p).pc.named then some p else none

structure Inv (s : State P) : Prop where
  good : ∀ p, Good p s.shared.count (s.party p)
  lock : Free s ∨ ∃ p, HeldBy s p

theorem Inv.init (h : Init s) : Inv s := by
  have hfree : ∀ p, ¬Inner (s.party p) := by
    intro p hp
    rw [h.party] at hp
    exact hp.elim (Nat.lt_irrefl 0) fun h => by cases h
  refine ⟨fun p => ?_, .inl ⟨hfree, h.shared⟩⟩
  rw [h.party]
  exact ⟨fun h => absurd h (Nat.lt_irrefl 0), fun t ht => by cases ht⟩

theorem Inv.heldBy (hI : Inv s) (hp : Inner (s.party p)) : HeldBy s p := by
  rcases hI.lock with hfree | ⟨q, hq⟩
  · exact absurd hp (hfree.1 p)
  · rw [hq.only p hp]
    exact hq

theorem Inv.owner_iff (hI : Inv s) :
    s.shared.owner = some p ↔ Inner (s.party p) ∧ (s.party p).pc.named = true := by
  constructor
  · intro howner
    rcases hI.lock with hfree | ⟨q, hq⟩
    · rw [hfree.2] at howner
      cases howner
    · rw [hq.owner] at howner
      split at howner <;> cases howner
      next hnamed => exact ⟨hq.inner, hnamed⟩
  · rintro ⟨hp, hnamed⟩
    rw [(hI.heldBy hp).owner, if_pos hnamed]

theorem Inv.between (hI : Inv s) (hpc : (s.party p).pc.between = true) (hpos : 0 < (s.party p).depth) :
    s.shared.count = (s.party p).depth ∧ s.shared.owner = some p := by
  have hk := (hI.good p).knows
  refine ⟨?_, hI.owner_iff.mpr ⟨.inl hpos, ?_⟩⟩
  · cases hcase : (s.party p).pc with
    | idle =>
      rw [hcase] at hk
      exact hk hpos
    | done r =>
      rw [hcase] at hk
      cases r with
      | restored c o => exact hk.2.2.2
      | _ => exact hk hpos
    | _ =>
      rw [hcase] at hpc
      cases hpc
  · cases hcase : (s.party p).pc with
    | idle | done r => rfl
    | _ =>
      rw [hcase] at hpc
      cases hpc

theorem Inv.nobody (hI : Inv s) (h : ∀ p, (s.party p).pc.between = true ∧ (s.party p).depth = 0) :
    s.shared.count = 0 ∧ s.shared.owner = none := by
  rcases hI.lock with hfree | ⟨p, hp⟩
  · rw [hfree.2]
    exact ⟨rfl, rfl⟩
  · obtain ⟨hpc, hdepth⟩ := h p
    rcases hp.inner with hpos | hin
    · omega
    · cases hcase : (s.party p).pc with
      | idle | done r =>
        rw [hcase] at hin
        cases hin
      | _ =>
        rw [hcase] at hpc
        cases hpc

/-! ## What a step can do -/

/-- How a step changes the number of acquires that a party has not released. -/
inductive Counts : ℕ → ℕ → Prop where
  | same (n : ℕ) : Counts n n
  | up (n : ℕ) : Counts n (n + 1)
  | down (n : ℕ) : Counts (n + 1) n
  /-- `_release_save`. -/
  | drop (n : ℕ) : Counts (n + 1) 0
  /-- `_acquire_restore`. -/
  | back (n : ℕ) : Counts 0 (n + 1)

/-- A step of `p`, seen from outside. -/
inductive Move (p : P) (x : Shared P) (y : Party P) : Shared P → Party P → Prop where
  | wander {y' : Party P} (hy : ¬Inner y) (hy' : ¬Inner y') (hgood : Good p x.count y') : Move p x y x y'
  | enter {y' : Party P} (hy : ¬Inner y) (hfree : x.locked = false) (hy' : Inner y')
      (hnamed : y'.pc.named = false) (hdepth : y'.depth = y.depth) (hgood : Good p x.count y') : Move p x y { x with locked := true } y'
  | hold {y' : Party P} {count : ℤ} (hy : Inner y) (hy' : Inner y') (hcounts : Counts y.depth y'.depth)
      (hgood : Good p count y') :
      Move p x y ⟨if y'.pc.named then some p else none, count, true⟩ y'
  | leave {y' : Party P} (hy : Inner y) (hy' : ¬Inner y') (hcounts : Counts y.depth y'.depth)
      (hgood : Good p 0 y') :
      Move p x y ⟨none, 0, false⟩ y'

theorem depth_pos_of_inner {pc₀ : Pc P} (hpc : y.pc = pc₀) (hin : pc₀.inside = false) (hy : Inner y) :
    0 < y.depth := by
  refine hy.resolve_right fun h => ?_
  rw [hpc, hin] at h
  cases h

theorem Move.of_inner (hy : Inner y) (hlocked : x'.locked = true)
    (howner : x'.owner = if y'.pc.named then some p else none) (hy' : Inner y')
    (hcounts : Counts y.depth y'.depth) (hgood : Good p x'.count y') : Move p x y x' y' := by
  obtain ⟨owner, count, locked⟩ := x'
  cases hlocked
  rw [show owner = _ from howner]
  exact .hold hy hy' hcounts hgood

theorem Inv.reads (hI : Inv s) {pc pc₀ : Pc P} (hpc : (s.party p).pc = pc₀) (hin₀ : pc₀.inside = false)
    (hin : pc.inside = false) (hnamed₀ : pc₀.named = true) (hnamed : pc.named = true)
    (hknows : pc.Knows p s.shared.count (s.party p).depth) :
    Move p s.shared (s.party p) s.shared ⟨pc, (s.party p).depth, (s.party p).tickets⟩ := by
  have hgood : Good p s.shared.count ⟨pc, (s.party p).depth, (s.party p).tickets⟩ :=
    ⟨hknows, (hI.good p).tickets⟩
  by_cases hy : Inner (s.party p)
  · have hp := hI.heldBy hy
    refine .of_inner hy hp.locked ?_ (.inl (depth_pos_of_inner (y := s.party p) hpc hin₀ hy)) (.same _) hgood
    rw [hp.owner, hpc, hnamed₀, hnamed]
  · refine .wander hy (fun hy' => hy ?_) hgood
    exact .inl (depth_pos_of_inner (y := ⟨pc, _, _⟩) rfl hin hy')

theorem Inv.stores (hI : Inv s) {pc : Pc P} {n : ℕ} (hy : Inner (s.party p))
    (hlocked : x'.locked = s.shared.locked) (howner : x'.owner = if pc.named then some p else none)
    (hy' : 0 < n ∨ pc.inside = true) (hcounts : Counts (s.party p).depth n)
    (hknows : pc.Knows p x'.count n) :
    Move p s.shared (s.party p) x' ⟨pc, n, (s.party p).tickets⟩ :=
  .of_inner hy (hlocked.trans (hI.heldBy hy).locked) howner hy' hcounts ⟨hknows, (hI.good p).tickets⟩

theorem Inv.unlocks (hI : Inv s) {pc₀ : Pc P} {r : Result P} {tickets : List (Ticket P)}
    (hpc : (s.party p).pc = pc₀) (hnamed₀ : pc₀.named = false) (hpos : 0 < (s.party p).depth)
    (hcount : s.shared.count = 0) (hcounts : Counts (s.party p).depth 0)
    (hgood : Good p 0 ⟨.done r, 0, tickets⟩) :
    Move p s.shared (s.party p) { s.shared with locked := false } ⟨.done r, 0, tickets⟩ := by
  have hp := hI.heldBy (.inl hpos)
  have hshared : (⟨s.shared.owner, s.shared.count, false⟩ : Shared P) = ⟨none, 0, false⟩ := by
    rw [hp.owner, hpc, hnamed₀, hcount]
    rfl
  rw [hshared]
  refine .leave (.inl hpos) (fun hy => ?_) hcounts hgood
  exact hy.elim (Nat.lt_irrefl 0) fun h => by cases h

theorem Inv.counts (hI : Inv s) (h : Move p s.shared (s.party p) x' y') : Counts (s.party p).depth y'.depth ∧
      ((s.party p).depth < y'.depth → ∀ q, q ≠ p → (s.party q).depth = 0) := by
  have hothers : Inner (s.party p) → ∀ q, q ≠ p → (s.party q).depth = 0 := by
    intro hy q hq
    apply depth_of_not_inner
    exact fun hinner => hq ((hI.heldBy hy).only q hinner)
  cases h with
  | wander hy hy' hgood =>
    rw [depth_of_not_inner hy, depth_of_not_inner hy']
    exact ⟨.same 0, fun h => absurd h (Nat.lt_irrefl 0)⟩
  | enter hy hfree hy' hnamed hdepth hgood =>
    rw [hdepth]
    exact ⟨.same _, fun h => absurd h (Nat.lt_irrefl _)⟩
  | hold hy hy' hcounts hgood | leave hy hy' hcounts hgood => exact ⟨hcounts, fun _ => hothers hy⟩

variable [DecidableEq P]

theorem party_set_self (x : Shared P) : (s.set p (x, y)).party p = y := Function.update_self ..

theorem party_set_of_ne (x : Shared P) (hq : q ≠ p) : (s.set p (x, y)).party q = s.party q :=
  Function.update_of_ne hq ..

theorem Inv.good_set (hI : Inv s) (hgood : Good p x.count y)
    (hothers : x.count = s.shared.count ∨ ∀ q, q ≠ p → ¬Inner (s.party q)) (q : P) :
    Good q x.count ((s.set p (x, y)).party q) := by
  by_cases hqp : q = p
  · subst hqp
    rw [party_set_self]
    exact hgood
  · rw [party_set_of_ne _ hqp]
    rcases hothers with hcount | hothers
    · rw [hcount]
      exact hI.good q
    · exact (hI.good q).of_not_inner (hothers q hqp)

theorem Inv.move (hI : Inv s) (h : Move p s.shared (s.party p) x' y') : Inv (s.set p (x', y')) := by
  cases h with
  | wander hy hy' hgood =>
    have hinner : ∀ q, Inner ((s.set p (s.shared, y')).party q) ↔ Inner (s.party q) := by
      intro q
      by_cases hqp : q = p
      · subst hqp
        rw [party_set_self]
        exact iff_of_false hy' hy
      · rw [party_set_of_ne _ hqp]
    refine ⟨hI.good_set hgood (.inl rfl), hI.lock.imp (fun hfree => ?_) ?_⟩
    · exact ⟨fun q hq => hfree.1 q ((hinner q).mp hq), hfree.2⟩
    · rintro ⟨q, hq⟩
      have hqp : q ≠ p := fun h => hy (h ▸ hq.inner)
      refine ⟨q, (hinner q).mpr hq.inner, fun r hr => hq.only r ((hinner r).mp hr), hq.locked, ?_⟩
      rw [party_set_of_ne _ hqp]
      exact hq.owner
  | enter hy hfree hy' hnamed hdepth hgood =>
    have hnone : ∀ q, ¬Inner (s.party q) := by
      intro q hq
      rw [(hI.heldBy hq).locked] at hfree
      cases hfree
    have howner : s.shared.owner = none := by
      rcases hI.lock with hl | ⟨q, hq⟩
      · rw [hl.2]
      · exact absurd hq.inner (hnone q)
    refine ⟨hI.good_set hgood (.inl rfl), .inr ⟨p, ?_, fun q hq => ?_, rfl, ?_⟩⟩
    · rw [party_set_self]
      exact hy'
    · by_contra hqp
      rw [party_set_of_ne _ hqp] at hq
      exact hnone q hq
    · rw [party_set_self, hnamed]
      exact howner
  | hold hy hy' hcounts hgood =>
    have hp := hI.heldBy hy
    have hothers : ∀ q, q ≠ p → ¬Inner (s.party q) := fun q hqp hq => hqp (hp.only q hq)
    refine ⟨hI.good_set hgood (.inr hothers), .inr ⟨p, ?_, fun q hq => ?_, rfl, ?_⟩⟩
    · rw [party_set_self]
      exact hy'
    · by_contra hqp
      rw [party_set_of_ne _ hqp] at hq
      exact hothers q hqp hq
    · rw [party_set_self]
      rfl
  | leave hy hy' hcounts hgood =>
    have hp := hI.heldBy hy
    have hothers : ∀ q, q ≠ p → ¬Inner (s.party q) := fun q hqp hq => hqp (hp.only q hq)
    refine ⟨hI.good_set hgood (.inr hothers), .inl ⟨fun q hq => ?_, rfl⟩⟩
    by_cases hqp : q = p
    · subst hqp
      rw [party_set_self] at hq
      exact hy' hq
    · rw [party_set_of_ne _ hqp] at hq
      exact hothers q hqp hq

/-! ## Every step is one of these -/

/-- `_release_save` is called by the holder, and `_acquire_restore` gets what its caller was given. -/
def Proper (s : State P) : Action P → Prop
  | .run p _ =>
    match (s.party p).pc with
    | .saveCheck => s.shared.count ≠ 0 → 0 < (s.party p).depth
    | _ => True
  | .acquireRestore p c o => ∃ t ∈ (s.party p).tickets, t.count = c ∧ t.owner = o
  | _ => True

theorem Inv.exec (hI : Inv s) {late : Bool} (hproper : Proper s (.run p late))
    (h : exec p late s.shared (s.party p) = some (x', y')) : Move p s.shared (s.party p) x' y' := by
  have hknows := (hI.good p).knows
  have howner : ∀ pc, (s.party p).pc = pc → pc.named = true → Inner (s.party p) → s.shared.owner = some p := by
    rintro pc rfl hnamed hy
    exact hI.owner_iff.mpr ⟨hy, hnamed⟩
  simp only [Proper] at hproper
  unfold CoRLock.exec at h
  -- A party that finds its own name has the inner lock; one that finds another, or none, has depth 0.
  cases hpc : (s.party p).pc with
  | idle | done r =>
    rw [hpc] at h
    cases h
  | isNone m =>
    rw [hpc] at h hknows
    cases h
    split
    next hnone =>
      refine hI.reads hpc rfl rfl rfl rfl (Nat.eq_zero_of_not_pos fun hpos => ?_)
      have := hI.owner_iff.mpr ⟨.inl hpos, by rw [hpc]; rfl⟩
      rw [this] at hnone
      cases hnone
    next => exact hI.reads hpc rfl rfl rfl rfl hknows
  | isCur m =>
    rw [hpc] at h hknows
    cases h
    split
    next hmine =>
      have hpos := depth_pos_of_inner hpc rfl (hI.owner_iff.mp hmine).1
      exact hI.reads hpc rfl rfl rfl rfl ⟨hpos, hknows hpos⟩
    next hother =>
      refine hI.reads hpc rfl rfl rfl rfl (Nat.eq_zero_of_not_pos fun hpos => hother ?_)
      exact hI.owner_iff.mpr ⟨.inl hpos, by rw [hpc]; rfl⟩
  | bumpRead | decRead | saveCount =>
    rw [hpc] at h hknows
    cases h
    exact hI.reads hpc rfl rfl rfl rfl hknows
  | bumpWrite n =>
    rw [hpc] at h hknows
    cases h
    refine hI.stores (.inl hknows.1) rfl (howner _ hpc rfl (.inl hknows.1)) (.inl (Nat.succ_pos _)) (.up _)
      fun _ => ?_
    rw [hknows.2]
    rfl
  | inner m =>
    rw [hpc] at h hknows
    have hdepth : (s.party p).depth = 0 := hknows
    have hout : ∀ r, r = Result.false →
        Move p s.shared (s.party p) s.shared { s.party p with pc := .done r } := by
      rintro r rfl
      refine hI.reads hpc rfl rfl rfl rfl fun hpos => ?_
      rw [hdepth] at hpos
      cases hpos
    dsimp only at h
    split at h
    · cases h
      exact hout _ rfl
    · split at h
      next =>
        split at h <;> cases h
        exact hout _ rfl
      next hfree =>
        cases h
        refine .enter ?_ (Bool.eq_false_iff.mpr hfree) (.inr rfl) rfl rfl ⟨hdepth, (hI.good p).tickets⟩
        intro hy
        have := depth_pos_of_inner hpc rfl hy
        omega
  | setOwner =>
    rw [hpc] at h hknows
    cases h
    exact hI.stores (.inr (by rw [hpc]; rfl)) rfl rfl (.inr rfl) (.same _) hknows
  | setCount =>
    rw [hpc] at h hknows
    have hy : Inner (s.party p) := .inr (by rw [hpc]; rfl)
    cases h
    refine hI.stores hy rfl (howner _ hpc rfl hy) (.inl (Nat.succ_pos _)) (.up _) fun _ => ?_
    rw [show (s.party p).depth = 0 from hknows]
    rfl
  | relOwner =>
    rw [hpc] at h hknows
    cases h
    split
    next hmine =>
      have hpos := depth_pos_of_inner hpc rfl (hI.owner_iff.mp hmine).1
      exact hI.reads hpc rfl rfl rfl rfl ⟨hpos, hknows hpos⟩
    next hother => exact hI.reads hpc rfl rfl rfl rfl hknows
  | decWrite n =>
    rw [hpc] at h hknows
    cases h
    refine hI.stores (.inl hknows.1) rfl (howner _ hpc rfl (.inl hknows.1)) (.inl hknows.1) (.same _)
      ⟨hknows.1, ?_⟩
    rw [hknows.2]
    exact Int.sub_add_cancel _ _
  | isZero =>
    rw [hpc] at h hknows
    obtain ⟨hpos, hcount⟩ := hknows
    dsimp only at h
    split at h <;> cases h
    next hzero =>
      refine hI.reads hpc rfl rfl rfl rfl ⟨?_, hzero⟩
      omega
    next hmore =>
      obtain ⟨n, hn⟩ := Nat.exists_eq_succ_of_ne_zero (Nat.pos_iff_ne_zero.mp hpos)
      rw [hn] at hcount ⊢
      refine hI.stores (n := n) (.inl hpos) rfl (howner _ hpc rfl (.inl hpos)) (.inl ?_) (hn ▸ .down n)
        fun _ => ?_
      · push_cast at hcount
        omega
      · show s.shared.count = n
        push_cast at hcount
        omega
  | clearOwner =>
    rw [hpc] at h hknows
    have hpos : 0 < (s.party p).depth := by
      rw [hknows.1]
      exact Nat.one_pos
    cases h
    exact hI.stores (.inl hpos) rfl rfl (.inl hpos) (.same _) hknows
  | unlock =>
    rw [hpc] at h hknows
    have hpos : 0 < (s.party p).depth := by
      rw [hknows.1]
      exact Nat.one_pos
    dsimp only at h
    rw [if_pos (hI.heldBy (.inl hpos)).locked] at h
    cases h
    have hlast : (s.party p).depth - 1 = 0 := by
      rw [hknows.1]
    have hdown : Counts (s.party p).depth 0 := by
      rw [hknows.1]
      exact .down 0
    rw [hlast]
    refine hI.unlocks hpc rfl hpos hknows.2 hdown ⟨fun hpos => ?_, (hI.good p).tickets⟩
    exact absurd hpos (Nat.lt_irrefl 0)
  | saveCheck =>
    rw [hpc] at h hknows hproper
    cases h
    split
    next => exact hI.reads hpc rfl rfl rfl rfl hknows
    next hcount =>
      have hpos := hproper hcount
      exact hI.reads hpc rfl rfl rfl rfl ⟨hpos, hknows hpos⟩
  | saveOwner c =>
    rw [hpc] at h hknows
    cases h
    exact hI.reads hpc rfl rfl rfl rfl ⟨hknows.1, hknows.2, howner _ hpc rfl (.inl hknows.1)⟩
  | saveZero c o =>
    rw [hpc] at h hknows
    cases h
    exact hI.stores (.inl hknows.1) rfl (howner _ hpc rfl (.inl hknows.1)) (.inl hknows.1) (.same _)
      ⟨hknows.1, hknows.2.1, hknows.2.2, rfl⟩
  | saveClear c o =>
    rw [hpc] at h hknows
    cases h
    exact hI.stores (.inl hknows.1) rfl rfl (.inl hknows.1) (.same _) hknows
  | saveUnlock c o =>
    rw [hpc] at h hknows
    obtain ⟨hpos, hc, ho, hcount⟩ := hknows
    dsimp only at h
    rw [if_pos (hI.heldBy (.inl hpos)).locked] at h
    cases h
    obtain ⟨n, hn⟩ := Nat.exists_eq_succ_of_ne_zero (Nat.pos_iff_ne_zero.mp hpos)
    -- The depth that goes into the ticket is the one that the party had.
    refine hI.unlocks hpc rfl hpos hcount (hn ▸ .drop n) ⟨fun hpos => ?_, fun t ht => ?_⟩
    · exact absurd hpos (Nat.lt_irrefl 0)
    · rcases List.mem_append.mp ht with ht | ht
      · exact (hI.good p).tickets t ht
      · rw [List.mem_singleton.mp ht]
        exact ⟨hc, hpos, ho⟩
  | restInner c o =>
    rw [hpc] at h hknows
    dsimp only at h
    split at h <;> cases h
    next hfree =>
      have hy : ¬Inner (s.party p) := fun hy => hfree (hI.heldBy hy).locked
      have hdepth : (s.party p).depth = 0 := depth_of_not_inner hy
      exact .enter hy (Bool.eq_false_iff.mpr hfree) (.inr rfl) rfl rfl ⟨⟨hdepth, hknows.2⟩, (hI.good p).tickets⟩
  | restCount c o =>
    rw [hpc] at h hknows
    obtain ⟨hdepth, hc, ho⟩ := hknows
    have hy : Inner (s.party p) := .inr (by rw [hpc]; rfl)
    cases h
    refine hI.stores hy rfl ?_ (.inr rfl) (.same _) ⟨hdepth, hc, ho, rfl⟩
    show s.shared.owner = none
    rw [(hI.heldBy hy).owner, hpc]
    rfl
  | restOwner c o =>
    rw [hpc] at h hknows
    obtain ⟨hdepth, hc, ho, hcount⟩ := hknows
    have hy : Inner (s.party p) := .inr (by rw [hpc]; rfl)
    have hnat : ((c.toNat : ℕ) : ℤ) = c := Int.toNat_of_nonneg (Int.le_of_lt hc)
    have hpos : 0 < c.toNat := by omega
    obtain ⟨n, hn⟩ := Nat.exists_eq_succ_of_ne_zero (Nat.pos_iff_ne_zero.mp hpos)
    cases h
    refine hI.stores hy rfl ho (.inl hpos) (hdepth ▸ hn ▸ .back n) ⟨hnat.symm, hpos, ho, ?_⟩
    exact hcount.trans hnat.symm

theorem Inv.call (hI : Inv s) {pc : Pc P} (h : s.call p pc = some s') (hin : pc.inside = false)
    (hnamed : pc.named = true)
    (hknows : (0 < (s.party p).depth → s.shared.count = (s.party p).depth) →
      pc.Knows p s.shared.count (s.party p).depth) :
    ∃ y', Move p s.shared (s.party p) s.shared y' ∧ s' = s.set p (s.shared, y') := by
  simp only [State.call] at h
  split at h <;> cases h
  next hbetween =>
    refine ⟨⟨pc, (s.party p).depth, (s.party p).tickets⟩, ?_, rfl⟩
    have hk := (hI.good p).knows
    cases hpc : (s.party p).pc with
    | idle =>
      rw [hpc] at hk
      exact hI.reads hpc rfl hin rfl hnamed (hknows hk)
    | done r =>
      rw [hpc] at hk
      refine hI.reads hpc rfl hin rfl hnamed (hknows fun hpos => ?_)
      cases r with
      | restored c o => exact hk.2.2.2
      | _ => exact hk hpos
    | _ =>
      rw [hpc] at hbetween
      cases hbetween

theorem Inv.step_move (hI : Inv s) {a : Action P} (hproper : Proper s a) (h : step s a = some s') :
    ∃ p x' y', Move p s.shared (s.party p) x' y' ∧ s' = s.set p (x', y') := by
  cases a with
  | acquire p m | release p | releaseSave p =>
    obtain ⟨y', hmove, rfl⟩ := hI.call h rfl rfl id
    exact ⟨p, _, y', hmove, rfl⟩
  | acquireRestore p c o =>
    obtain ⟨t, ht, rfl, rfl⟩ := hproper
    obtain ⟨hcount, hpos, howner⟩ := (hI.good p).tickets t ht
    obtain ⟨y', hmove, rfl⟩ := hI.call h rfl rfl fun hk => ⟨hk, by omega, howner⟩
    exact ⟨p, _, y', hmove, rfl⟩
  | run p late =>
    obtain ⟨⟨x', y'⟩, hexec, rfl⟩ := Option.map_eq_some_iff.mp h
    exact ⟨p, x', y', hI.exec hproper hexec, rfl⟩

theorem Inv.step (hI : Inv s) {a : Action P} (hproper : Proper s a) (h : step s a = some s') : Inv s' := by
  obtain ⟨p, x', y', hmove, rfl⟩ := hI.step_move hproper h
  exact hI.move hmove

theorem inv_of_reachable (h : (coRLock P).ReachableWith Proper s) : Inv s :=
  h.invariant (fun _ => Inv.init) fun _ _ _ hI hC hs => hI.step hC hs

end Runloom.CoRLock
