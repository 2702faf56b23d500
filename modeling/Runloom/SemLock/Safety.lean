import Runloom.SemLock.Model
import Runloom.Transition.Ledger

/-!
# Two fibers in one critical section

The owner is stored after the C call has succeeded, and is read before the C call is made.  Between the two a fiber of
the same hub passes the check and gets the lock again, because the C lock takes it for its holder.

When no fiber makes the C call while a sibling has the lock, no two fibers hold it.
-/

namespace Runloom.SemLock

open Transition

variable {F H : Type*}

/-- After the C call that succeeded, up to the store that clears the owner. -/
def Pc.inside : Pc → Bool
  | .setOwner | .setCount | .relIsNone | .relIsCur | .relRaw | .decRead | .decWrite _ | .isZero | .clear => true
  | _ => false

/-- The fiber has the lock: it has passed the C call, and has not cleared the owner. -/
def Owns (s : State F H) (f : F) : Prop := 0 < s.depth f ∨ (s.pc f).inside = true

instance (s : State F H) (f : F) : Decidable (Owns s f) := inferInstanceAs (Decidable (_ ∨ _))

def Pc.plain : Pc → Bool
  | .setOwner | .post => false
  | _ => true

theorem Pc.ne_of_plain {pc : Pc} (h : pc.plain = true) : pc ≠ .setOwner ∧ pc ≠ .post := by
  constructor
  all_goals
    rintro rfl
    cases h

def Alone (hub : F → H) (s : State F H) : Action F → Prop
  | .run f _ =>
    match s.pc f with
    | .cAcquire _ => ∀ g, g ≠ f → hub g = hub f → ¬Owns s g
    | _ => True
  | _ => True

/-- What a fiber knows of `state[1]`. -/
def Good (count : ℤ) (depth : ℕ) : Pc → Prop
  | .idle | .isNone _ | .isCur _ => 0 < depth → count = depth
  | .bumpRead => 0 < depth ∧ count = depth
  | .bumpWrite n => 0 < depth ∧ n = depth
  | .isFree _ | .cAcquire _ | .missed _ | .setOwner | .setCount | .clear | .post => depth = 0
  | .relIsNone | .relIsCur | .decRead => count = depth + 1
  | .decWrite n => n = depth + 1
  | .isZero => count = depth
  | .relRaw => False

theorem Good.of_outside {count count' : ℤ} {depth : ℕ} {pc : Pc} (h : Good count depth pc)
    (hdepth : depth = 0) (hpc : pc.inside = false) : Good count' depth pc := by
  subst hdepth
  cases pc with
  | idle | isNone m | isCur m => exact fun h => absurd h (lt_irrefl 0)
  | bumpRead => exact absurd h.1 (lt_irrefl 0)
  | bumpWrite n => exact h
  | isFree m | cAcquire m | missed m | post => rfl
  | _ => cases hpc

/-- The fibers that have the lock, and those that have yet to post it. -/
def Inside (s : State F H) (f : F) : Prop := Owns s f ∨ s.pc f = .post

structure Inv (hub : F → H) (s : State F H) : Prop where
  one : ∀ f g, Owns s f → Owns s g → f = g
  owner : ∀ f, s.shared.owner = some f ↔ Owns s f ∧ s.pc f ≠ .setOwner
  good : ∀ f, Good s.shared.count (s.depth f) (s.pc f)
  counted : Counted (Inside s) s.shared.raw.count
  tid : ∀ f, Inside s f → s.shared.raw.lastTid = some (hub f)
  sem : s.shared.raw.sem = .here ↔ 0 < s.shared.raw.count

variable {hub : F → H} {s s' : State F H} {f : F} {pc pc₀ : Pc} {depth : ℕ} {n : ℤ}

theorem Inv.init (h : Init s) : Inv hub s := by
  have howns : ∀ f, ¬Owns s f := by
    intro f hf
    rw [Owns, h.pc, h.depth] at hf
    exact hf.elim (lt_irrefl 0) fun h => by cases h
  have hinside : ∀ f, ¬Inside s f := by
    rintro f (hf | hf)
    · exact howns f hf
    · rw [h.pc] at hf
      cases hf
  exact {
    one := fun f g hf => absurd hf (howns f)
    owner := fun f => by
      rw [h.owner]
      exact iff_of_false (fun h => by cases h) fun hf => howns f hf.1
    good := fun f => by
      rw [h.pc, h.depth]
      exact fun h => absurd h (lt_irrefl 0)
    counted := by
      rw [h.cCount]
      exact counted_zero hinside
    tid := fun f hf => absurd hf (hinside f)
    sem := by
      rw [h.cCount]
      exact iff_of_false h.sem (lt_irrefl 0) }

theorem Inv.outside (hI : Inv hub s) {g : F} (hf : Owns s f) (hgf : g ≠ f) :
    s.depth g = 0 ∧ (s.pc g).inside = false := by
  have hg : ¬Owns s g := fun hg => hgf (hI.one g f hg hf)
  rw [Owns, not_or] at hg
  exact ⟨Nat.eq_zero_of_not_pos hg.1, Bool.eq_false_iff.mpr hg.2⟩

theorem Inv.owner_eq (hI : Inv hub s) (hf : Owns s f) (hpc : s.pc f ≠ .setOwner) : s.shared.owner = some f :=
  (hI.owner f).mpr ⟨hf, hpc⟩

theorem Inv.depth_of_not_owner (hI : Inv hub s) (hpc : s.pc f ≠ .setOwner)
    (howner : s.shared.owner ≠ some f) : s.depth f = 0 := by
  apply Nat.eq_zero_of_not_pos
  exact fun hpos => howner (hI.owner_eq (.inl hpos) hpc)

theorem Inv.other (hI : Inv hub s) {sem : Sem} (hold : s.shared.raw.sem ≠ .here) (hnew : sem ≠ .here) :
    Inv hub { s with shared := { s.shared with raw := { s.shared.raw with sem := sem } } } where
  one := hI.one
  owner := hI.owner
  good := hI.good
  counted := hI.counted
  tid := hI.tid
  sem := iff_of_false hnew fun hpos => hold (hI.sem.mpr hpos)

/-! ## One fiber moves -/

variable [DecidableEq F]

theorem owns_set_self (x : Shared F H) : Owns (s.set f (x, pc, depth)) f ↔ 0 < depth ∨ pc.inside = true := by
  simp only [Owns, State.set, update_self]

theorem owns_set_of_ne (x : Shared F H) {g : F} (hg : g ≠ f) : Owns (s.set f (x, pc, depth)) g ↔ Owns s g := by
  simp only [Owns, State.set, update_of_ne hg]

theorem pc_set_self (x : Shared F H) : (s.set f (x, pc, depth)).pc f = pc := update_self ..

theorem pc_set_of_ne (x : Shared F H) {g : F} (hg : g ≠ f) : (s.set f (x, pc, depth)).pc g = s.pc g :=
  update_of_ne hg ..

/-- The same fiber has the lock, when `f` has it before and after, or neither. -/
theorem owns_set (x : Shared F H) (hf : 0 < depth ∨ pc.inside = true ↔ Owns s f) (g : F) :
    Owns (s.set f (x, pc, depth)) g ↔ Owns s g := by
  by_cases hgf : g = f
  · subst hgf
    rw [owns_set_self]
    exact hf
  · exact owns_set_of_ne x hgf

theorem inside_set_of_ne (x : Shared F H) {g : F} (hg : g ≠ f) :
    Inside (s.set f (x, pc, depth)) g ↔ Inside s g := by
  rw [Inside, owns_set_of_ne x hg, pc_set_of_ne x hg]
  rfl

section

variable (hI : Inv hub s)
include hI

/-- What the fibers know, when `f` has moved and only an owner has stored. -/
theorem Inv.good_set (x : Shared F H) (hgood : Good x.count depth pc)
    (hcount : x.count = s.shared.count ∨ Owns s f) (g : F) :
    Good x.count ((s.set f (x, pc, depth)).depth g) ((s.set f (x, pc, depth)).pc g) := by
  by_cases hgf : g = f
  · subst hgf
    simp only [State.set, update_self]
    exact hgood
  · simp only [State.set, update_of_ne hgf]
    rcases hcount with hcount | hf
    · rw [hcount]
      exact hI.good g
    · exact (hI.good g).of_outside (hI.outside hf hgf).1 (hI.outside hf hgf).2

theorem Inv.move (hpc₀ : s.pc f = pc₀) (hplain₀ : pc₀.plain = true)
    (hplain : pc.plain = true) (howns : 0 < depth ∨ pc.inside = true ↔ Owns s f)
    (hgood : Good n depth pc) (hcount : n = s.shared.count ∨ Owns s f) :
    Inv hub (s.set f ({ s.shared with count := n }, pc, depth)) := by
  obtain ⟨hset, hpost⟩ := Pc.ne_of_plain hplain
  obtain ⟨hset', hpost'⟩ := Pc.ne_of_plain hplain₀
  rw [← hpc₀] at hset' hpost'
  have hO : ∀ g, Owns (s.set f ({ s.shared with count := n }, pc, depth)) g ↔ Owns s g := owns_set _ howns
  have hpc : ∀ g k, pc ≠ k → s.pc f ≠ k →
      ((s.set f ({ s.shared with count := n }, pc, depth)).pc g = k ↔ s.pc g = k) := by
    intro g k hk hk'
    by_cases hgf : g = f
    · subst hgf
      rw [pc_set_self]
      exact iff_of_false hk hk'
    · rw [pc_set_of_ne _ hgf]
  have hin : ∀ g, Inside (s.set f ({ s.shared with count := n }, pc, depth)) g ↔ Inside s g :=
    fun g => or_congr (hO g) (hpc g _ hpost hpost')
  exact {
    one := fun g h hg hh => hI.one g h ((hO g).mp hg) ((hO h).mp hh)
    owner := fun g => (hI.owner g).trans (and_congr (hO g).symm (not_congr (hpc g _ hset hset').symm))
    good := hI.good_set _ hgood hcount
    counted := hI.counted.congr hin
    tid := fun g hg => hI.tid g ((hin g).mp hg)
    sem := hI.sem }

theorem Inv.wander (hpc₀ : s.pc f = pc₀) (hplain₀ : pc₀.plain = true)
    (hplain : pc.plain = true) (hf : ¬Owns s f) (hout : pc.inside = false)
    (hgood : Good s.shared.count 0 pc) : Inv hub (s.set f (s.shared, pc, s.depth f)) := by
  have hdepth : s.depth f = 0 := Nat.eq_zero_of_not_pos fun h => hf (.inl h)
  refine hI.move (n := s.shared.count) hpc₀ hplain₀ hplain ?_ ?_ (.inl rfl)
  · rw [hdepth, hout]
    refine iff_of_false (fun h => ?_) hf
    exact h.elim (lt_irrefl 0) fun h => by cases h
  · rw [hdepth]
    exact hgood

theorem Inv.hold (hpc₀ : s.pc f = pc₀) (hplain₀ : pc₀.plain = true)
    (hplain : pc.plain = true) (hf : Owns s f) (hown : 0 < depth ∨ pc.inside = true)
    (hgood : Good n depth pc) : Inv hub (s.set f ({ s.shared with count := n }, pc, depth)) :=
  hI.move hpc₀ hplain₀ hplain (iff_of_true hown hf) hgood (.inr hf)

theorem Inv.setOwner (hpc : s.pc f = .setOwner) :
    Inv hub (s.set f ({ s.shared with owner := some f }, .setCount, s.depth f)) := by
  have hf : Owns s f := by
    right
    rw [hpc]
    rfl
  have hdepth : s.depth f = 0 := by
    have := hI.good f
    rw [hpc] at this
    exact this
  have hO : ∀ g, Owns (s.set f ({ s.shared with owner := some f }, .setCount, s.depth f)) g ↔ Owns s g :=
    owns_set _ (iff_of_true (.inr rfl) hf)
  have hin : ∀ g, Inside (s.set f ({ s.shared with owner := some f }, .setCount, s.depth f)) g ↔
      Inside s g := by
    intro g
    by_cases hgf : g = f
    · subst hgf
      exact iff_of_true (.inl ((hO g).mpr hf)) (.inl hf)
    · exact inside_set_of_ne _ hgf
  exact {
    one := fun g h hg hh => hI.one g h ((hO g).mp hg) ((hO h).mp hh)
    owner := fun g => by
      rw [hO]
      constructor
      · intro hg
        cases hg
        rw [pc_set_self]
        exact ⟨hf, fun h => by cases h⟩
      · exact fun hg => congrArg some (hI.one f g hf hg.1)
    good := hI.good_set _ hdepth (.inl rfl)
    counted := hI.counted.congr hin
    tid := fun g hg => hI.tid g ((hin g).mp hg)
    sem := hI.sem }

theorem Inv.clear (hpc : s.pc f = .clear) :
    Inv hub (s.set f ({ s.shared with owner := none }, .post, s.depth f)) := by
  have hf : Owns s f := by
    right
    rw [hpc]
    rfl
  have hdepth : s.depth f = 0 := by
    have := hI.good f
    rw [hpc] at this
    exact this
  have hO : ∀ g, ¬Owns (s.set f ({ s.shared with owner := none }, .post, s.depth f)) g := by
    intro g hg
    by_cases hgf : g = f
    · subst hgf
      rw [owns_set_self, hdepth] at hg
      exact hg.elim (lt_irrefl 0) fun h => by cases h
    · exact hgf (hI.one g f ((owns_set_of_ne _ hgf).mp hg) hf)
  have hin : ∀ g, Inside (s.set f ({ s.shared with owner := none }, .post, s.depth f)) g ↔ Inside s g := by
    intro g
    by_cases hgf : g = f
    · subst hgf
      exact iff_of_true (.inr (pc_set_self _)) (.inl hf)
    · exact inside_set_of_ne _ hgf
  exact {
    one := fun g h hg => absurd hg (hO g)
    owner := fun g => iff_of_false (fun h => by cases h) fun hg => hO g hg.1
    good := hI.good_set _ hdepth (.inl rfl)
    counted := hI.counted.congr hin
    tid := fun g hg => hI.tid g ((hin g).mp hg)
    sem := hI.sem }

end

/-! ## The C lock -/

variable [DecidableEq H]

theorem Inv.gain (hI : Inv hub s) {raw : Raw H} (hdepth : s.depth f = 0) (hf : ¬Inside s f)
    (halone : ∀ g, g ≠ f → hub g = hub f → ¬Owns s g)
    (hraw : s.shared.raw.acquire (hub f) = (raw, true)) :
    Inv hub (s.set f ({ s.shared with raw := raw }, .setOwner, s.depth f)) := by
  -- The lock is free, or it is the thread's already.
  have hcase : raw.count = s.shared.raw.count + 1 ∧ raw.lastTid = some (hub f) ∧ raw.sem = .here ∧
      (s.shared.raw.count = 0 ∨ s.shared.raw.lastTid = some (hub f)) := by
    simp only [Raw.acquire] at hraw
    split at hraw
    next hmine =>
      cases hraw
      simp only [Raw.isMine, Bool.and_eq_true, decide_eq_true_eq, beq_iff_eq] at hmine
      exact ⟨rfl, hmine.2, hI.sem.mpr hmine.1, .inr hmine.2⟩
    next =>
      split at hraw <;> cases hraw
      next hfree =>
        refine ⟨rfl, rfl, rfl, .inl ?_⟩
        apply Nat.eq_zero_of_not_pos
        intro hpos
        rw [hI.sem.mpr hpos] at hfree
        cases hfree
  obtain ⟨hcount, htid, hsem, hthread⟩ := hcase
  have hnone : ∀ g, g ≠ f → ¬Owns s g := by
    intro g hgf hg
    rcases hthread with hzero | hthread
    · exact hI.counted.none (by omega) g (.inl hg)
    · have hhub := hI.tid g (.inl hg)
      rw [hthread] at hhub
      exact halone g hgf (Option.some.inj hhub).symm hg
  have hin : ∀ g, Inside (s.set f ({ s.shared with raw := raw }, .setOwner, s.depth f)) g ↔
      g = f ∨ Inside s g := by
    intro g
    by_cases hgf : g = f
    · subst hgf
      exact iff_of_true (.inl ((owns_set_self _).mpr (.inr rfl))) (.inl rfl)
    · exact (inside_set_of_ne _ hgf).trans (or_iff_right hgf).symm
  have hO : ∀ g, Owns (s.set f ({ s.shared with raw := raw }, .setOwner, s.depth f)) g → g = f := by
    intro g hg
    by_contra hgf
    exact hnone g hgf ((owns_set_of_ne _ hgf).mp hg)
  exact {
    one := fun g h hg hh => (hO g hg).trans (hO h hh).symm
    owner := fun g => by
      refine iff_of_false (fun hg => ?_) fun hg => ?_
      · have howns := ((hI.owner g).mp hg).1
        by_cases hgf : g = f
        · exact hf (.inl (hgf ▸ howns))
        · exact hnone g hgf howns
      · rw [hO g hg.1, pc_set_self] at hg
        exact hg.2 rfl
    good := hI.good_set _ hdepth (.inl rfl)
    counted := by
      show Counted _ (raw.count : ℤ)
      rw [hcount, Nat.cast_succ]
      exact hI.counted.gain hf hin
    tid := fun g hg => by
      rcases (hin g).mp hg with rfl | hg
      · exact htid
      · show raw.lastTid = _
        rw [htid]
        rcases hthread with hzero | hthread
        · exact absurd hg (hI.counted.none (by omega) g)
        · exact hthread.symm.trans (hI.tid g hg)
    sem := iff_of_true hsem (by
      show 0 < raw.count
      omega) }

theorem Inv.post (hI : Inv hub s) (hpc : s.pc f = .post) :
    Inv hub (s.set f ({ s.shared with raw := s.shared.raw.release (hub f) }, .idle, s.depth f)) := by
  have hf : Inside s f := .inr hpc
  have hdepth : s.depth f = 0 := by
    have := hI.good f
    rw [hpc] at this
    exact this
  have hpos : 0 < s.shared.raw.count := by
    have := hI.counted.pos hf
    omega
  have hmine : s.shared.raw.isMine (hub f) = true := by
    simp only [Raw.isMine, Bool.and_eq_true, decide_eq_true_eq, beq_iff_eq]
    exact ⟨hpos, hI.tid f hf⟩
  have hcase : (s.shared.raw.release (hub f)).count = s.shared.raw.count - 1 ∧
      (s.shared.raw.release (hub f)).lastTid = s.shared.raw.lastTid ∧
      ((s.shared.raw.release (hub f)).sem = .here ↔ 1 < s.shared.raw.count) := by
    rw [Raw.release, if_pos hmine]
    split
    next hmore => exact ⟨rfl, rfl, iff_of_true (hI.sem.mpr hpos) hmore⟩
    next hlast => exact ⟨rfl, rfl, iff_of_false (fun h => by cases h) hlast⟩
  obtain ⟨hcount, htid, hsem⟩ := hcase
  have hnot : ¬Owns s f := by
    rintro (h | h)
    · rw [hdepth] at h
      exact lt_irrefl 0 h
    · rw [hpc] at h
      cases h
  have hO : ∀ g, Owns (s.set f ({ s.shared with raw := s.shared.raw.release (hub f) }, .idle, s.depth f)) g ↔
      Owns s g := by
    refine owns_set _ (iff_of_false (fun h => ?_) hnot)
    rw [hdepth] at h
    exact h.elim (lt_irrefl 0) fun h => by cases h
  have hin : ∀ g, Inside (s.set f ({ s.shared with raw := s.shared.raw.release (hub f) }, .idle,
      s.depth f)) g ↔ g ≠ f ∧ Inside s g := by
    intro g
    by_cases hgf : g = f
    · subst hgf
      refine iff_of_false ?_ fun h => h.1 rfl
      rintro (h | h)
      · exact hnot ((hO g).mp h)
      · rw [pc_set_self] at h
        cases h
    · exact (inside_set_of_ne _ hgf).trans (and_iff_right hgf).symm
  exact {
    one := fun g h hg hh => hI.one g h ((hO g).mp hg) ((hO h).mp hh)
    owner := fun g => by
      rw [hO]
      by_cases hgf : g = f
      · subst hgf
        exact iff_of_false (fun h => hnot ((hI.owner g).mp h).1) fun h => hnot h.1
      · rw [pc_set_of_ne _ hgf]
        exact hI.owner g
    good := hI.good_set _ (fun h => absurd (hdepth ▸ h) (lt_irrefl 0)) (.inl rfl)
    counted := by
      show Counted _ ((s.shared.raw.release (hub f)).count : ℤ)
      rw [hcount, Nat.cast_sub hpos]
      exact hI.counted.lose hf hin
    tid := fun g hg => htid.trans (hI.tid g ((hin g).mp hg).2)
    sem := by
      refine hsem.trans ?_
      show 1 < _ ↔ 0 < (s.shared.raw.release (hub f)).count
      omega }

/-! ## Steps -/

theorem Inv.run (hI : Inv hub s) {late : Bool} (halone : Alone hub s (.run f late))
    {p : Shared F H × Pc × ℕ} (h : exec (hub f) f late s.shared (s.depth f) (s.pc f) = some p) :
    Inv hub (s.set f p) := by
  have hgood := hI.good f
  simp only [Alone] at halone
  have hin : ∀ pc, s.pc f = pc → pc.inside = true → Owns s f := by
    rintro pc rfl hpc
    exact .inr hpc
  have hout : ∀ pc, s.pc f = pc → pc.inside = false → s.depth f = 0 → ¬Owns s f := by
    rintro pc rfl hpc hd (h | h)
    · rw [hd] at h
      exact lt_irrefl 0 h
    · rw [hpc] at h
      cases h
  have hset : ∀ pc, s.pc f = pc → pc.plain = true → s.pc f ≠ .setOwner := by
    rintro pc rfl hpc
    exact (Pc.ne_of_plain hpc).1
  cases hpc : s.pc f with
  | idle =>
    rw [hpc] at h
    cases h
  | isNone m =>
    rw [hpc] at h hgood
    cases h
    split
    next hnone =>
      have hd : s.depth f = 0 := by
        apply hI.depth_of_not_owner (hset _ hpc rfl)
        rw [Option.isNone_iff_eq_none.mp hnone]
        exact fun h => by cases h
      exact hI.wander hpc rfl rfl (hout _ hpc rfl hd) rfl rfl
    next =>
      refine hI.move (n := s.shared.count) hpc rfl rfl ?_ hgood (.inl rfl)
      rw [Owns, hpc]
      rfl
  | isCur m =>
    rw [hpc] at h hgood
    cases h
    split
    next hown =>
      have hf := ((hI.owner f).mp hown).1
      have hpos : 0 < s.depth f := by
        refine hf.resolve_right fun h => ?_
        rw [hpc] at h
        cases h
      exact hI.hold hpc rfl rfl hf (.inl hpos) ⟨hpos, hgood hpos⟩
    next hother =>
      have hd : s.depth f = 0 := hI.depth_of_not_owner (hset _ hpc rfl) hother
      exact hI.wander hpc rfl rfl (hout _ hpc rfl hd) rfl rfl
  | bumpRead =>
    rw [hpc] at h hgood
    cases h
    exact hI.hold hpc rfl rfl (.inl hgood.1) (.inl hgood.1) hgood
  | bumpWrite n =>
    rw [hpc] at h hgood
    cases h
    refine hI.hold hpc rfl rfl (.inl hgood.1) (.inl (Nat.succ_pos _)) fun _ => ?_
    rw [hgood.2, Nat.cast_succ]
  | isFree m =>
    rw [hpc] at h hgood
    have hf := hout _ hpc rfl hgood
    cases h
    split
    · exact hI.wander hpc rfl rfl hf rfl rfl
    · split
      · exact hI.wander hpc rfl rfl hf rfl fun h => absurd h (lt_irrefl 0)
      · exact hI.wander hpc rfl rfl hf rfl rfl
  | cAcquire m =>
    -- Without a sibling the C lock answers for the semaphore, and not for the thread.
    rw [hpc] at h hgood halone
    have hf := hout _ hpc rfl hgood
    simp only [exec] at h
    split at h
    next raw hraw =>
      cases h
      refine hI.gain hgood ?_ halone hraw
      rintro (h | h)
      · exact hf h
      · rw [hpc] at h
        cases h
    next raw hraw =>
      have hsame : raw = s.shared.raw := by
        simp only [Raw.acquire] at hraw
        split at hraw
        · cases hraw
        · split at hraw <;> cases hraw
          rfl
      cases h
      rw [hsame]
      split
      · exact hI.wander hpc rfl rfl hf rfl fun h => absurd h (lt_irrefl 0)
      · exact hI.wander hpc rfl rfl hf rfl rfl
  | setOwner =>
    rw [hpc] at h
    cases h
    exact hI.setOwner hpc
  | setCount =>
    rw [hpc] at h hgood
    cases h
    refine hI.hold hpc rfl rfl (hin _ hpc rfl) (.inl (Nat.succ_pos _)) fun _ => ?_
    rw [show s.depth f = 0 from hgood]
    rfl
  | missed m =>
    rw [hpc] at h hgood
    have hf := hout _ hpc rfl hgood
    cases h
    split
    · exact hI.wander hpc rfl rfl hf rfl fun h => absurd h (lt_irrefl 0)
    · exact hI.wander hpc rfl rfl hf rfl rfl
  | relIsNone =>
    rw [hpc] at h hgood
    have hf := hin _ hpc rfl
    cases h
    rw [hI.owner_eq hf (hset _ hpc rfl)]
    exact hI.hold (n := s.shared.count) hpc rfl rfl hf (.inr rfl) hgood
  | relIsCur =>
    rw [hpc] at h hgood
    have hf := hin _ hpc rfl
    cases h
    rw [if_pos (hI.owner_eq hf (hset _ hpc rfl))]
    exact hI.hold (n := s.shared.count) hpc rfl rfl hf (.inr rfl) hgood
  | relRaw =>
    rw [hpc] at hgood
    exact hgood.elim
  | decRead =>
    rw [hpc] at h hgood
    cases h
    exact hI.hold (n := s.shared.count) hpc rfl rfl (hin _ hpc rfl) (.inr rfl) hgood
  | decWrite n =>
    rw [hpc] at h hgood
    cases h
    refine hI.hold hpc rfl rfl (hin _ hpc rfl) (.inr rfl) ?_
    rw [show n = _ from hgood]
    exact Int.add_sub_cancel _ _
  | isZero =>
    rw [hpc] at h hgood
    have hgood : s.shared.count = s.depth f := hgood
    have hf := hin _ hpc rfl
    cases h
    split
    next hzero =>
      refine hI.hold (n := s.shared.count) hpc rfl rfl hf (.inr rfl) ?_
      show s.depth f = 0
      omega
    next hmore =>
      refine hI.hold (n := s.shared.count) hpc rfl rfl hf (.inl ?_) fun _ => hgood
      omega
  | clear =>
    rw [hpc] at h
    cases h
    exact hI.clear hpc
  | post =>
    rw [hpc] at h
    cases h
    exact hI.post hpc

theorem Inv.step (hI : Inv hub s) {a : Action F} (halone : Alone hub s a) (h : step hub s a = some s') :
    Inv hub s' := by
  cases a with
  | acquire f m =>
    simp only [SemLock.step] at h
    split at h <;> cases h
    next hpc =>
      have hgood := hI.good f
      rw [hpc] at hgood
      refine hI.move (n := s.shared.count) hpc rfl rfl ?_ hgood (.inl rfl)
      rw [Owns, hpc]
      rfl
  | release f =>
    simp only [SemLock.step] at h
    split at h
    next hidle =>
      obtain ⟨hpc, hpos⟩ := hidle
      cases h
      have hgood := hI.good f
      rw [hpc] at hgood
      refine hI.hold (n := s.shared.count) hpc rfl rfl (.inl hpos) (.inr rfl) ?_
      rw [Good, hgood hpos]
      omega
    next => cases h
  | run f late =>
    obtain ⟨p, hp, rfl⟩ := Option.map_eq_some_iff.mp h
    exact hI.run halone hp
  | otherTake =>
    simp only [SemLock.step] at h
    split at h <;> cases h
    next hfree =>
      refine hI.other ?_ (by decide)
      rw [hfree]
      decide
  | otherPost =>
    simp only [SemLock.step] at h
    split at h <;> cases h
    next htaken =>
      refine hI.other ?_ (by decide)
      rw [htaken]
      decide

theorem inv_of_reachable (h : (semLock hub).ReachableWith (Alone hub) s) : Inv hub s :=
  h.invariant (fun _ => Inv.init) fun _ _ _ hI hC hs => hI.step hC hs

/-- When no C call is made while a sibling has the lock, no two fibers hold it. -/
theorem holders_agree (h : (semLock hub).ReachableWith (Alone hub) s) {f g : F} (hf : 0 < s.depth f)
    (hg : 0 < s.depth g) : f = g :=
  (inv_of_reachable h).one f g (.inl hf) (.inl hg)

/-! ## Two fibers of one hub -/

def oneHub : Bool → Unit := fun _ => ()

def unheld : State Bool Unit := ⟨⟨none, 0, ⟨.free, 0, none⟩⟩, fun _ => .idle, fun _ => 0⟩

theorem init_unheld : Init unheld :=
  ⟨rfl, rfl, rfl, fun h => (by cases h), fun _ => rfl, fun _ => rfl⟩

instance (s : State Bool Unit) : ∀ a, Decidable (Alone oneHub s a)
  | .run f _ =>
    match h : s.pc f with
    | .cAcquire _ =>
      decidable_of_iff (∀ g, g ≠ f → oneHub g = oneHub f → ¬Owns s g) (by simp only [Alone, h])
    | .idle | .isNone _ | .isCur _ | .bumpRead | .bumpWrite _ | .isFree _ | .setOwner | .setCount | .missed _
    | .relIsNone | .relIsCur | .relRaw | .decRead | .decWrite _ | .isZero | .clear | .post =>
      .isTrue (by simp only [Alone, h])
  | .acquire _ _ | .release _ | .otherTake | .otherPost => .isTrue trivial

/-- Both fibers read that there is no owner, and both get the C lock. -/
theorem siblings_both_hold :
    ¬∀ s, (semLock oneHub).Reachable s → ∀ f g, 0 < s.depth f → 0 < s.depth g → f = g := by
  intro hall
  obtain ⟨s, hr, hf, ht⟩ := (semLock oneHub).reaches (fun s => 0 < s.depth false ∧ 0 < s.depth true)
    [.acquire false .blocking, .run false false, .run false false, .run false false,
      .acquire true .nonblocking, .run true false, .run true false, .run true false,
      .run false false, .run false false, .run true false, .run true false]
    (s := unheld) init_unheld (by decide +kernel)
  cases hall s hr false true hf ht

/-- One fiber has cleared the owner when the other makes its C call. -/
theorem holders_agree_release :
    ∃ s, (semLock oneHub).ReachableWith (Alone oneHub) s ∧ 0 < s.depth true ∧ s.shared.raw.count = 2 ∧
      ∀ f, 0 < s.depth f → f = true := by
  obtain ⟨s, hr, hpos, hcount⟩ := (semLock oneHub).reachesWith (Alone oneHub)
    (fun s => 0 < s.depth true ∧ s.shared.raw.count = 2)
    [.acquire false .blocking, .run false false, .run false false, .run false false, .run false false,
      .run false false, .release false, .run false false, .run false false, .run false false,
      .run false false, .run false false, .run false false,
      .acquire true .timed, .run true false, .run true false, .run true false, .run true false,
      .run true false]
    (s := unheld) init_unheld (by decide +kernel)
  exact ⟨s, hr, hpos, hcount, fun f hf => holders_agree hr hf hpos⟩

end Runloom.SemLock
