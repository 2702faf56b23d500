import Mathlib.Algebra.BigOperators.Ring.Finset
import Runloom.Wakep.Watch

/-!
# A registered hub is not left alone with work to steal

The steps of the threads keep the count and what the hubs have looked at.  What follows is said of general hubs: an
offload hub registers as well, and `wakep_one` passes it by.
-/

namespace Runloom.Wakep

open Transition

variable {n : ℕ} {P : Type*} [DecidableEq P] {cfg : Config n} {s u : State n P} {t : Thread n P} {h i j : Fin n}
  {c : Pc n} {l : Loc n} {k : ℕ}

/-! ## The flags -/

/-- The thread is at an exchange of the flag of hub `i` from 1 to 0. -/
def Pc.Clears (t : Thread n P) (i : Fin n) : Pc n → Prop
  | .exitCas | .foundCas => t = .inl i
  | .cas j _ => j = i
  | _ => False

theorem goto_pc (s : State n P) (t : Thread n P) (c : Pc n) : (s.goto t c).pc t = c := update_self ..

theorem clear_flag {won lost : Pc n} (hwon : won.owed = 1) (hc : (s.pc t).Clears t j) (i : Fin n) :
    (s.clear t j won lost).idleParked i = s.idleParked i ∨
      s.idleParked i = true ∧ (s.pc t).Clears t i ∧ ((s.clear t j won lost).pc t).owed = 1 := by
  unfold State.clear
  split
  next hj =>
    by_cases hi : i = j
    · subst hi
      refine .inr ⟨hj, hc, ?_⟩
      rw [goto_pc]
      exact hwon
    · exact .inl (update_of_ne hi ..)
  next => exact .inl rfl

theorem next_flag (hn : s.next cfg t = some u) (i : Fin n) :
    u.idleParked i = s.idleParked i ∨ t = .inl i ∧ s.pc t = .store ∨
      s.idleParked i = true ∧ (s.pc t).Clears t i ∧ (u.pc t).owed = 1 := by
  unfold State.next at hn
  split at hn
  case h_2 j hpc =>
    cases hn
    exact (clear_flag rfl (by rw [hpc]; rfl) i).imp id .inr
  case h_8 j hpc =>
    cases hn
    by_cases hi : i = j
    · subst hi
      exact .inr (.inl ⟨rfl, hpc⟩)
    · exact .inl (update_of_ne hi ..)
  case h_14 j hpc =>
    cases hn
    exact (clear_flag rfl (by rw [hpc]; rfl) i).imp id .inr
  case h_19 j todo hpc =>
    cases hn
    exact (clear_flag rfl (by rw [hpc]; rfl) i).imp id .inr
  case h_22 => cases hn
  all_goals
    cases hn
    left
    first | rfl | (split <;> rfl) | (split <;> first | rfl | (split <;> rfl))

def Pc.parks : Pc n → Bool
  | .enter | .store => true
  | _ => false

theorem goto_of_ne {t' : Thread n P} (ht : t' ≠ t) : (s.goto t c).pc t' = s.pc t' := update_of_ne ht ..

theorem next_pc (hn : s.next cfg t = some u) :
    (∀ t', t' ≠ t → u.pc t' = s.pc t') ∧ ((u.pc t).parks = true → (s.pc t).parks = true) := by
  have hgoto : ∀ (v : State n P) (c : Pc n), v.pc = s.pc → c.parks = false →
      (∀ t', t' ≠ t → (v.goto t c).pc t' = s.pc t') ∧ (((v.goto t c).pc t).parks = true → (s.pc t).parks = true) := by
    intro v c hv hc
    refine ⟨fun t' ht' => by rw [goto_of_ne ht', hv], fun hp => ?_⟩
    rw [goto_pc, hc] at hp
    cases hp
  unfold State.next at hn
  split at hn
  case h_7 i hpc =>
    cases hn
    exact ⟨fun t' ht' => goto_of_ne ht', fun _ => by rw [hpc]; rfl⟩
  case h_22 => cases hn
  all_goals
    cases hn
    first
    | exact hgoto _ _ rfl rfl
    | (split <;> first | exact hgoto _ _ rfl rfl | (split <;> exact hgoto _ _ rfl rfl))
    | (unfold State.clear; split <;> exact hgoto _ _ rfl rfl)

def OnlyDeep (cfg : Config n) (s : State n P) : Prop :=
  cfg.deep = false → ∀ i, s.idleParked i = false ∧ (s.pc (.inl i)).parks = false

section

variable (hD : OnlyDeep cfg s)
include hD

omit [DecidableEq P] in
theorem OnlyDeep.flag (hi : s.idleParked i = true) : cfg.deep = true := by
  cases hd : cfg.deep with
  | true => rfl
  | false =>
    rw [(hD hd i).1] at hi
    cases hi

theorem OnlyDeep.next (hn : s.next cfg t = some u) : OnlyDeep cfg u := by
  intro hd i
  obtain ⟨hflag, hpark⟩ := hD hd i
  obtain ⟨hother, hself⟩ := next_pc hn
  have hpark' : ∀ {a : Pc n}, (a.parks = true → (s.pc (.inl i)).parks = true) → a.parks = false := by
    intro a ha
    cases hap : a.parks with
    | false => rfl
    | true =>
      rw [ha hap] at hpark
      cases hpark
  constructor
  · rcases next_flag hn i with heq | ⟨rfl, hpc⟩ | ⟨hi, -⟩
    · rw [heq, hflag]
    · rw [hpc] at hpark
      cases hpark
    · rw [hflag] at hi
      cases hi
  · by_cases ht : Sum.inl i = t
    · subst ht
      exact hpark' hself
    · rw [hother _ ht]
      exact hpark

theorem OnlyDeep.move {v : State n P} (hflags : v.idleParked = s.idleParked)
    (hpc : v.pc = s.pc) (hc : cfg.deep = false → c.parks = false) : OnlyDeep cfg (v.goto t c) := by
  intro hd i
  obtain ⟨hflag, hpark⟩ := hD hd i
  refine ⟨(congrFun hflags i).trans hflag, ?_⟩
  by_cases ht : Sum.inl i = t
  · subst ht
    rw [goto_pc]
    exact hc hd
  · rw [goto_of_ne ht, hpc]
    exact hpark

theorem OnlyDeep.step {a : Action n P} (ha : Wakep.step cfg s a = some u) : OnlyDeep cfg u := by
  cases a with
  | next t => exact hD.next ha
  | loop i | wake i =>
    simp only [Wakep.step] at ha
    split at ha <;> cases ha
    exact hD.move rfl rfl fun _ => rfl
  | startDrain i =>
    simp only [Wakep.step] at ha
    split at ha <;> cases ha
    exact hD.move (v := s.begin (.inl i)) rfl rfl fun _ => rfl
  | park i =>
    simp only [Wakep.step] at ha
    split at ha <;> cases ha
    next hpark =>
      refine hD.move rfl rfl fun hd => ?_
      rw [hd] at hpark
      cases hpark.2
  | push i | runqPull | pop i b | steal i =>
    simp only [Wakep.step] at ha
    split at ha <;> cases ha
    exact hD
  | runqPush t =>
    simp only [Wakep.step] at ha
    split at ha <;> cases ha
    exact hD.move (v := ({ s with runqLen := s.runqLen + 1 }.begin t).publish cfg .runq t) (c := .gate) rfl rfl
      fun _ => rfl

end

theorem flag_cleared_by_one {a : Action n P} (ha : (registry P cfg).step s a = some u) (hi : s.idleParked i = true)
    (hu : u.idleParked i = false) :
    ∃ t, a = .next t ∧ (s.pc t).Clears t i ∧ (u.pc t).owed = 1 ∧ ∀ t', t' ≠ t → u.pc t' = s.pc t' := by
  cases a with
  | next t =>
    rcases next_flag ha i with heq | ⟨rfl, hpc⟩ | ⟨-, hc, howed⟩
    · rw [heq, hi] at hu
      cases hu
    · have hstore : u = (s.setParked i true).goto (.inl i) .add := by
        have ha : s.next cfg (.inl i) = some u := ha
        unfold State.next at ha
        rw [hpc] at ha
        cases ha
        rfl
      rw [hstore] at hu
      have hu : Function.update s.idleParked i true i = false := hu
      rw [update_self] at hu
      cases hu
    · exact ⟨t, rfl, hc, howed, (next_pc ha).1⟩
  | _ =>
    simp only [registry, Wakep.step] at ha
    split at ha <;> cases ha
    have hu : s.idleParked i = false := hu
    rw [hi] at hu
    cases hu

/-! ## Every step -/

variable [Fintype P]

theorem Watch.next (hW : Watch cfg s) (hL : Ledger s) (hdeep : ∀ i, s.idleParked i = true → cfg.deep = true)
    (hn : s.next cfg t = some u) : Watch cfg u := by
  unfold State.next at hn
  split at hn
  -- The loop top and `park_exit`.
  next i hpc =>
    cases hn
    split
    next hi =>
      refine hW.hub moved_goto (by rw [hpc]; rfl) rfl (fun l _ _ _ => ⟨hi, ?_⟩) fun _ _ h => h
      rw [Watched, hpc]
      trivial
    next => exact hW.hub_blind moved_goto (by rw [hpc]; rfl) rfl (fun _ h => h) fun _ _ h => h
  next i hpc =>
    cases hn
    exact hW.clear_hub (by rw [hpc]; rfl) rfl rfl fun _ h => h
  next i hpc =>
    cases hn
    exact hW.hub_blind (c := .run) ⟨rfl, rfl, rfl, rfl, rfl, rfl, rfl⟩ (by rw [hpc]; rfl) rfl (fun _ h => h)
      fun _ _ h => h
  -- The drain.
  next i hpc =>
    cases hn
    exact hW.call moved_goto (by rw [hpc]; rfl) (fun _ => by rw [hpc]; rfl) (fun _ _ _ hb => by cases hb) rfl
      (fun _ h => h) fun _ _ _ _ => trivial
  next i hpc =>
    cases hn
    refine hW.call moved_goto (by rw [hpc]; rfl) (fun _ => by rw [hpc]; rfl) (fun j b hj hb => ?_) rfl
      (fun _ h => h) fun _ _ _ _ => trivial
    cases hj
    cases hb
    rfl
  next b i hpc =>
    cases hn
    split
    next =>
      exact hW.call moved_goto (by rw [hpc]; rfl) (fun h => by cases h) (fun _ _ _ hb => by cases hb) rfl
        (fun _ h => h) fun _ _ _ _ => trivial
    next hsize =>
      -- The size is read off the hub's own deque: with surplus there, the call goes on.
      refine hW.finish (by rw [hpc]; rfl) fun h l _ hi _ _ hs hm _ => ?_
      obtain ⟨j, hj, rfl⟩ := hW.drain l (.inl i) hm (by rw [hpc]; rfl)
      cases hj
      rw [hW.check i b hpc] at hsize
      exact absurd ⟨hdeep h hi, hs.2⟩ hsize
  -- `park_enter`.
  next i hpc =>
    cases hn
    have hdown := hL.down (i := i) (by rw [hpc]; rfl)
    rw [hdown]
    exact hW.hub_blind moved_goto (by rw [hpc]; rfl) rfl (fun _ h => h) fun _ _ h => h
  next i hpc =>
    cases hn
    refine hW.hub_blind (c := .add) ⟨rfl, rfl, rfl, rfl, rfl, rfl, rfl⟩ (by rw [hpc]; rfl) rfl (fun _ h => h)
      fun h hne hh => ?_
    have hh : Function.update s.idleParked i true h = true := hh
    rwa [update_of_ne hne] at hh
  next i hpc =>
    cases hn
    exact hW.hub_blind (c := .scanRunq) ⟨rfl, rfl, rfl, rfl, rfl, rfl, rfl⟩ (by rw [hpc]; rfl) rfl (fun _ h => h)
      fun _ _ h => h
  next i hpc =>
    cases hn
    split
    next => exact hW.hub_blind moved_goto (by rw [hpc]; rfl) rfl (fun _ h => h) fun _ _ h => h
    next hlen =>
      refine hW.hub moved_goto (by rw [hpc]; rfl) rfl (fun l _ hw hs => ?_) fun _ _ h => h
      cases l with
      | runq => exact absurd hs hlen
      | deque j => exact absurd rfl (hw j hs.1)
  next i hpc =>
    cases hn
    refine hW.hub moved_goto (by rw [hpc]; rfl) rfl (fun l hi _ _ => ⟨hi, ?_⟩) fun _ _ h => h
    rw [Watched, hpc]
    exact fun _ h => by cases h
  next j todo i hpc =>
    cases hn
    refine hW.hub moved_goto (by rw [hpc]; rfl) rfl (fun l hi hw _ => ⟨hi, ?_⟩) fun _ _ h => h
    rw [Watched, hpc]
    exact hw.resolve_right fun h => absurd h.2 (lt_irrefl _)
  next b j todo i hpc =>
    cases hn
    split
    next => exact hW.hub_blind moved_goto (by rw [hpc]; rfl) rfl (fun _ h => h) fun _ _ h => h
    next hsize =>
      -- `b` was too small for a surplus; if there is one now, it was pushed after the look.
      refine hW.hub moved_goto (by rw [hpc]; rfl) rfl (fun l hi hw hs => ⟨hi, ?_⟩) fun _ _ h => h
      rw [Watched, hpc]
      by_cases hl : l = .deque j
      · subst hl
        have := hs.2
        exact .inr ⟨rfl, by omega⟩
      · exact .inl (List.forall_mem_cons.2 ⟨hl, hw⟩)
  next i hpc =>
    cases hn
    exact hW.clear_hub (by rw [hpc]; rfl) rfl rfl fun _ h => h
  next i hpc =>
    cases hn
    have hdown := hL.down (i := i) (by rw [hpc]; rfl)
    refine hW.hub (c := .top) ⟨rfl, rfl, rfl, rfl, rfl, rfl, rfl⟩ (by rw [hpc]; rfl) rfl (fun l hi _ _ => ?_)
      fun _ _ h => h
    have hi : s.idleParked i = true := hi
    rw [hdown] at hi
    cases hi
  -- `wakep_one`.
  next hpc =>
    cases hn
    split
    next hoff => exact hW.finish (by rw [hpc]; rfl) fun h l _ hi _ _ _ _ _ => absurd (hdeep h hi) hoff
    next =>
      split
      next hle =>
        refine hW.finish (by rw [hpc]; rfl) fun h l _ hi _ hw _ _ _ => .inr ?_
        have hadd : s.pc (.inl h) ≠ .add := by
          intro hadd
          rw [Watched, hadd] at hw
          exact hw
        rw [decide_eq_true (hL.window hi hadd hle)]
      next =>
        exact hW.call moved_goto (by rw [hpc]; rfl) (fun h => by cases h) (fun _ _ _ hb => by cases hb) rfl (fun _ h => h)
          fun h hh _ _ => hh
  next hpc =>
    cases hn
    refine hW.finish (by rw [hpc]; rfl) fun h l _ _ _ _ _ _ hs => ?_
    rw [hpc] at hs
    cases hs
  next i todo hpc =>
    cases hn
    split
    next =>
      refine hW.call moved_goto (by rw [hpc]; rfl) (fun h => by cases h) (fun _ _ _ hb => by cases hb) rfl (fun _ h => h)
        fun h _ _ hs => ?_
      rw [hpc] at hs
      exact hs
    next hi =>
      refine hW.call moved_goto (by rw [hpc]; rfl) (fun h => by cases h) (fun _ _ _ hb => by cases hb) rfl (fun _ h => h)
        fun h _ hh hs => ?_
      rw [hpc] at hs
      refine (List.mem_cons.1 hs).resolve_left fun heq => hi ?_
      rw [← heq]
      exact hh
  next i todo hpc =>
    cases hn
    unfold State.clear
    split
    next =>
      refine hW.call (c := .sub i) ⟨rfl, rfl, rfl, rfl, rfl, rfl, rfl⟩ (by rw [hpc]; rfl) (fun h => by cases h)
        (fun _ _ _ hb => by cases hb) rfl (fun h hh => ?_) fun _ _ _ _ => trivial
      exact (parked_of_clear hh rfl).2
    next hi =>
      refine hW.call moved_goto (by rw [hpc]; rfl) (fun h => by cases h) (fun _ _ _ hb => by cases hb) rfl (fun _ h => h)
        fun h _ hh hs => ?_
      rw [hpc] at hs
      refine (List.mem_cons.1 hs).resolve_left fun heq => hi ?_
      rw [← heq]
      exact hh
  next i hpc =>
    cases hn
    exact hW.call (c := .kick i) ⟨rfl, rfl, rfl, rfl, rfl, rfl, rfl⟩ (by rw [hpc]; rfl) (fun h => by cases h)
      (fun _ _ _ hb => by cases hb) rfl (fun _ h => h) fun _ _ _ _ => trivial
  next i hpc =>
    cases hn
    exact hW.finish (by rw [hpc]; rfl) fun _ _ _ _ _ _ _ _ _ => .inl rfl
  next => cases hn

theorem Watch.step {a : Action n P} (hW : Watch cfg s) (hL : Ledger s) (hD : OnlyDeep cfg s)
    (ha : Wakep.step cfg s a = some u) : Watch cfg u := by
  cases a with
  | next t => exact hW.next hL (fun _ => hD.flag) ha
  | loop i =>
    simp only [Wakep.step] at ha
    split at ha <;> cases ha
    next hpc =>
      have hdown := hL.down (i := i) (by rw [hpc]; rfl)
      refine hW.hub moved_goto (by rw [hpc]; rfl) rfl (fun l hi _ _ => ?_) fun _ _ h => h
      have hi : s.idleParked i = true := hi
      rw [hdown] at hi
      cases hi
  | startDrain i =>
    simp only [Wakep.step] at ha
    split at ha <;> cases ha
    next hpc => exact hW.start hpc rfl fun _ h => by cases h
  | park i =>
    simp only [Wakep.step] at ha
    split at ha <;> cases ha
    next hpc => exact hW.hub_blind moved_goto (by rw [hpc.1]; rfl) rfl (fun _ h => h) fun _ _ h => h
  | push i =>
    simp only [Wakep.step] at ha
    split at ha <;> cases ha
    next hpc =>
      refine hW.publish rfl rfl rfl rfl rfl (fun l' hl hs => ?_) (fun j hj => ?_) (fun j b hj => ?_)
        (fun h => by rw [hpc]; trivial) fun _ => ⟨i, rfl, rfl⟩
      · cases l' with
        | runq => exact hs
        | deque j =>
          have hji : j ≠ i := fun hji => hl (by rw [hji])
          refine ⟨hs.1, ?_⟩
          have hs := hs.2
          simpa only [update_of_ne hji] using hs
      · exact update_of_ne (fun hji => hj (by rw [hji])) ..
      · refine update_of_ne (fun hji => ?_) ..
        rw [hji, hpc] at hj
        cases hj
  | runqPush t =>
    simp only [Wakep.step] at ha
    split at ha <;> cases ha
    next hpc =>
      have hstart := hW.start (c := .gate) hpc rfl fun _ h => by cases h
      refine hstart.publish (t := t) (l := .runq) (v := { (s.begin t).goto t .gate with runqLen := s.runqLen + 1 })
        rfl rfl rfl rfl rfl (fun l' hl hs => ?_) (fun _ _ => rfl) (fun _ _ _ => rfl) (fun h => ?_) fun hd => ?_
      · cases l' with
        | runq => exact absurd rfl hl
        | deque j => exact hs
      · rw [goto_pc]
        trivial
      · rw [goto_pc] at hd
        cases hd
  | runqPull =>
    simp only [Wakep.step] at ha
    split at ha <;> cases ha
    next hlen =>
      refine hW.settle rfl rfl rfl rfl rfl (fun l' hs => ?_) (fun _ _ => rfl) (fun _ _ _ => rfl) fun _ _ => le_rfl
      cases l' with
      | runq => exact hlen
      | deque j => exact hs
  | pop i b =>
    simp only [Wakep.step] at ha
    split at ha <;> cases ha
    next hpop =>
      obtain ⟨hpc, hb⟩ := hpop
      have hle : (1 : ℤ) < b - s.top i → b ≤ s.bottom i := fun h => hb.resolve_right fun hb => by omega
      refine hW.settle rfl rfl rfl rfl rfl (fun l' hs => ?_) (fun j hj => ?_) (fun j b hj => ?_) fun hs j => ?_
      · cases l' with
        | runq => exact hs
        | deque j =>
          refine ⟨hs.1, ?_⟩
          have hs := hs.2
          by_cases hji : j = i
          · subst hji
            simp only [update_self] at hs
            have := hle hs
            omega
          · simpa only [update_of_ne hji] using hs
      · exact update_of_ne (fun hji => hj (by rw [hji])) ..
      · refine update_of_ne (fun hji => ?_) ..
        rw [hji, hpc] at hj
        cases hj
      · have hs := hs.2
        simp only [update_self] at hs
        by_cases hji : j = i
        · subst hji
          simp only [update_self]
          exact hle hs
        · simp only [update_of_ne hji, le_refl]
  | steal i =>
    simp only [Wakep.step] at ha
    split at ha <;> cases ha
    refine hW.settle rfl rfl rfl rfl rfl (fun l' hs => ?_) (fun _ _ => rfl) (fun _ _ _ => rfl) fun _ _ => le_rfl
    cases l' with
    | runq => exact hs
    | deque j =>
      refine ⟨hs.1, ?_⟩
      have hs := hs.2
      by_cases hji : j = i
      · subst hji
        simp only [update_self] at hs
        omega
      · simpa only [update_of_ne hji] using hs
  | wake i =>
    simp only [Wakep.step] at ha
    split at ha <;> cases ha
    next hpc =>
      refine hW.hub moved_goto (by rw [hpc]; rfl) rfl (fun l hi _ _ => ⟨hi, ?_⟩) fun _ _ h => h
      rw [Watched, hpc]
      trivial

structure Inv (cfg : Config n) (s : State n P) : Prop where
  ledger : Ledger s
  watch : Watch cfg s
  onlyDeep : OnlyDeep cfg s

omit [DecidableEq P] in
theorem Inv.init (h : Init s) : Inv cfg s := by
  refine ⟨Ledger.init h, Watch.init h, fun _ i => ⟨h.idleParked i, ?_⟩⟩
  rw [h.pc]
  rfl

theorem inv_of_reachable (hr : (registry P cfg).Reachable s) : Inv cfg s :=
  hr.invariant (fun _ hs => Inv.init hs) fun _ _ _ hI _ ha =>
    ⟨hI.ledger.step ha, hI.watch.step hI.ledger hI.onlyDeep ha, hI.onlyDeep.step ha⟩

/-! ## The registry -/

/-- A call of `runloom_mn_wakep_one` that has kicked, or is not over. -/
def Pursued (s : State n P) (t : Thread n P) (k : ℕ) : Prop :=
  s.outcome t k = some .kicked ∨ k = s.calls t ∧ (s.pc t).inCall = true

instance (s : State n P) (t : Thread n P) (k : ℕ) : Decidable (Pursued s t k) := inferInstanceAs (Decidable (_ ∨ _))

omit [DecidableEq P] in
theorem sum_owed (s : State n P) :
    ∑ t, (s.pc t).owed = ((Finset.univ.filter fun t => 0 < (s.pc t).owed).card : ℤ) -
      (Finset.univ.filter fun t => s.pc t = .add).card := by
  rw [Finset.natCast_card_filter, Finset.natCast_card_filter, ← Finset.sum_sub_distrib]
  refine Finset.sum_congr rfl fun t _ => ?_
  cases s.pc t <;> rfl

omit [DecidableEq P] [Fintype P] in
theorem sum_parked (s : State n P) :
    ∑ i, parked (s.idleParked i) = (Finset.univ.filter fun i => s.idleParked i = true).card := by
  rw [Finset.natCast_card_filter]
  rfl

/-- `nidle` is the number of registered hubs but for those in their window, and for a blocked general hub that is
registered beside work, a publishing call has kicked a hub or is to. -/
theorem wakep_registry (hr : (registry P cfg).Reachable s) :
    s.nidle + (Finset.univ.filter fun t => s.pc t = .add).card =
      (Finset.univ.filter fun i => s.idleParked i = true).card +
        (Finset.univ.filter fun t => 0 < (s.pc t).owed).card ∧
    (∀ a u i, (registry P cfg).step s a = some u → s.idleParked i = true → u.idleParked i = false →
      ∃ t, a = .next t ∧ (s.pc t).Clears t i ∧ (u.pc t).owed = 1 ∧ ∀ t', t' ≠ t → u.pc t' = s.pc t') ∧
    ∀ h ∈ generals cfg, s.pc (.inl h) = .blocked → s.idleParked h = true → ∀ l, s.Surplus cfg l →
      ∃ t k, (t, k) ∈ s.pubs l ∧ (Pursued s t k ∨ s.outcome t k = some (.turned true)) := by
  have hI := inv_of_reachable hr
  refine ⟨?_, fun a u i ha hi hu => flag_cleared_by_one ha hi hu, fun h hh hpc hi l hs => ?_⟩
  · have hcount := hI.ledger.count
    rw [sum_owed, sum_parked] at hcount
    omega
  · obtain ⟨t, k, hm, hg⟩ := hI.watch.watch h hh hi l (by rw [Watched, hpc]; trivial) hs
    refine ⟨t, k, hm, ?_⟩
    rcases hg with (hk | hk) | ⟨hk, hsee⟩
    · exact .inl (.inl hk)
    · exact .inr hk
    · exact .inl (.inr ⟨hk, Sees.inCall hsee⟩)

/-! ## Two hubs and one other thread -/

def quiet : State 2 Unit :=
  ⟨fun _ => false, 0, 0, fun _ => 0, fun _ => 0, fun _ => .run, fun _ => 0, fun _ _ => none, fun _ => []⟩

theorem quiet_init : Init quiet :=
  ⟨fun _ => rfl, rfl, rfl, fun _ => rfl, fun _ => rfl, fun _ _ => rfl, fun _ => rfl⟩

/-- The steps by which hub `i` comes to its deep wait, with `m` accesses in its scan. -/
def goesToSleep (i : Fin 2) (m : ℕ) : List (Action 2 Unit) := .park i :: List.replicate (4 + m) (.next (.inl i))

/-- Hub 0 is blocked and the other thread has pushed to the run queue: its call is on its way. -/
theorem wakep_registry_pushed :
    ∃ s, (registry Unit (⟨true, 2⟩ : Config 2)).Reachable s ∧ s.pc (.inl 0) = .blocked ∧ s.Surplus ⟨true, 2⟩ .runq ∧
      ∃ t k, (t, k) ∈ s.pubs .runq ∧ (Pursued s t k ∨ s.outcome t k = some (.turned true)) := by
  obtain ⟨s, hr, hpc, hi, hs⟩ := (registry Unit (⟨true, 2⟩ : Config 2)).reaches
    (fun s => s.pc (.inl 0) = .blocked ∧ s.idleParked 0 = true ∧ s.Surplus ⟨true, 2⟩ .runq)
    (goesToSleep 0 5 ++ [Action.runqPush (.inr ())]) (s := quiet) quiet_init (by decide +kernel)
  exact ⟨s, hr, hpc, hs, (wakep_registry hr).2.2 0 (by decide) hpc hi .runq hs⟩

/-- A thread that has pushed finds no general hub; and a hub that loses its flag uncounted makes `nidle` negative. -/
theorem offload_hub_left_registered :
    (∃ s, (registry Unit (⟨true, 1⟩ : Config 2)).Reachable s ∧ s.pc (.inl 1) = .blocked ∧ s.idleParked 1 = true ∧
      s.Surplus ⟨true, 1⟩ .runq ∧ ∀ c ∈ s.pubs .runq, ¬Pursued s c.1 c.2) ∧
    ∃ s, (registry Unit (⟨true, 2⟩ : Config 2)).Reachable s ∧ s.nidle < 0 := by
  constructor
  · exact (registry Unit (⟨true, 1⟩ : Config 2)).reaches
      (fun s => s.pc (.inl 1) = .blocked ∧ s.idleParked 1 = true ∧ s.Surplus ⟨true, 1⟩ .runq ∧
        ∀ c ∈ s.pubs .runq, ¬Pursued s c.1 c.2)
      (goesToSleep 1 3 ++ Action.runqPush (.inr ()) :: List.replicate 3 (.next (.inr ())))
      (s := quiet) quiet_init (by decide +kernel)
  · exact (registry Unit (⟨true, 2⟩ : Config 2)).reaches (fun s => s.nidle < 0)
      (goesToSleep 1 5 ++ [Action.runqPush (.inr ()), .next (.inr ()), .runqPull, .park 0, .next (.inl 0),
        .next (.inl 0), .next (.inr ()), .next (.inr ()), .next (.inr ()), .wake 1, .next (.inl 1), .next (.inl 1),
        .next (.inl 1)])
      (s := quiet) quiet_init (by decide +kernel)

end Runloom.Wakep
