import Runloom.CoCondition.Invariant

/-!
# The cooperative condition variable: notices and returns

The steps on the queue are made by who holds the lock: the append and the `remove` of a `wait`, the pops of a
`notify`, and the return of a `wait`, which is put in the books with the lock held too.
-/

namespace Runloom.CoCondition

open Transition Handoff List

variable {F : Type*} {waiters removed : List (Parker F)} {returns : List (Parker F × Bool)} {f d : F} {p : Pc F}
  {x : Parker F} {kind : Kind} {s t : State F}

section Steps

variable [DecidableEq F]

/-! ## Steps on the queue, by who holds the lock -/

section

variable (hI : Inv kind s)
include hI

theorem Inv.onQueue (hf : s.lock.holder = some f) {notices : List (Notice F)} {m : F → ℕ}
    (hfits : ∀ d, d ≠ f → Fits waiters removed returns s.gone (m d) d (s.pc d))
    (hself : Fits waiters removed returns s.gone (m f) f p) (hnodup : (waiters ++ removed).Nodup)
    (honce : (returns.map Prod.fst).Nodup) (hexact : ∀ x ∈ notices, x.Exact)
    (hpopping : ∀ asked queued n woke, p = .popping asked queued n woke →
      Popping waiters asked queued n woke ∧ removed = notices.flatMap Notice.woke ++ woke)
    (hsettled : p.pops = false → removed = notices.flatMap Notice.woke)
    (hhand : ∀ x ∈ p.hand, x.fiber ≠ f ∧ (s.pc x.fiber).parker = some x.round)
    (hqueue : ∀ x ∈ s.waiters, x.fiber ≠ f → x ∈ waiters ∨ x ∈ p.hand)
    (hwake : ∀ x ∈ (s.pc f).hand, x ∈ p.hand) (hlined : p.lined = true → f ∈ waiters.map Parker.fiber)
    (hsleep : p.asleep = false)
    (hterms : Terms kind s.lock.count s.now (s.entry f) p) :
    Inv kind ({ s with
      waiters := waiters, removed := removed, returns := returns, notices := notices, made := m }.goto f p) := by
  have hother : ∀ d, d ≠ f → (s.pc d).holds ≠ true := by
    intro d hd hholds
    rw [hI.holds d hholds] at hf
    exact hd (Option.some.inj hf)
  refine ⟨?_, hI.plain, ?_, hnodup, honce, hexact, ?_, fun hquiet => ?_, ?_, ?_, ?_, ?_⟩
  · exact State.forall_goto (P := fun d q => q.holds = true → s.lock.holder = some d) (fun _ => hf)
      fun d _ => hI.holds d
  · exact State.forall_goto (P := fun d q => Fits waiters removed returns s.gone (m d) d q) hself hfits
  · refine State.forall_goto (P := fun _ q => ∀ asked queued n woke, q = .popping asked queued n woke →
      Popping waiters asked queued n woke ∧ removed = notices.flatMap Notice.woke ++ woke) hpopping ?_
    intro d hd asked queued n woke hpc
    refine absurd ?_ (hother d hd)
    rw [show s.pc d = _ from hpc]
    rfl
  · apply hsettled
    have := hquiet f
    rwa [State.goto_self] at this
  · refine State.forall_goto (P := fun _ q => ∀ x ∈ q.hand, ((State.goto _ f p).pc x.fiber).parker = some x.round)
      (fun x hx => ?_) fun d hd x hx => absurd (Pc.holds_of_mem_hand hx) (hother d hd)
    obtain ⟨hne, hparked⟩ := hhand x hx
    rwa [State.goto_of_ne hne]
  · exact State.forall_goto (P := fun d q => q.lined = true → d ∈ waiters.map Parker.fiber) hlined
      fun d hd h => absurd (Pc.holds_of_lined h) (hother d hd)
  · refine State.forall_goto (P := fun d q => q.asleep = true →
      Reached Pc.toWake (waiters.map Parker.fiber) s.credit (update s.pc f p) d) ?_ fun d hd hasleep => ?_
    · rw [hsleep]
      exact nofun
    refine (hI.reached d hasleep).move (fun hmem => ?_) fun hmem => ?_
    · obtain ⟨x, hx, rfl⟩ := mem_map.mp hmem
      exact (hqueue x hx hd).imp mem_map_of_mem mem_map_of_mem
    · obtain ⟨x, hx, rfl⟩ := mem_map.mp hmem
      exact mem_map_of_mem (hwake x hx)
  · exact State.forall_goto (P := fun d q => Terms kind s.lock.count s.now (s.entry d) q) hterms
      fun d _ => hI.terms d

theorem Inv.enqueue {w : Wait} (hpc : s.pc f = .making w) : Inv kind (s.enqueue f w) := by
  have hfits := hI.fits f
  have hterms := hI.terms f
  have hf : s.lock.holder = some f := hI.holds f (by rw [hpc]; rfl)
  rw [hpc] at hfits hterms
  -- The number of the new parker was not used before.
  obtain ⟨hremoved, hreturns, hgone⟩ := hfits.fresh (s.made f) (Nat.le_refl _)
  have hmem : ∀ x : Parker F, x ∈ s.waiters ++ [⟨f, s.made f⟩] ↔ x ∈ s.waiters ∨ x = ⟨f, s.made f⟩ := fun x => by
    rw [mem_append, mem_singleton]
  refine hI.onQueue hf (m := update s.made f (s.made f + 1)) (fun d hd => ?_) ?_ ?_ hI.once hI.exact
    nofun (fun _ => hI.removed_eq hf (by rw [hpc]; rfl)) nofun (fun x hx _ => ?_) ?_ (fun _ => ?_) rfl
    (hterms.move nofun (fun _ => id) (fun _ => id) rfl rfl)
  · rw [update_of_ne hd]
    refine (hI.fits d).congr (fun k => ?_) (fun _ => Iff.rfl) (fun _ _ => Iff.rfl) fun _ => rfl
    rw [hmem, or_iff_left]
    exact fun h => hd (congrArg Parker.fiber h)
  · rw [update_self]
    refine ⟨fun k hk => ?_, fun k hk => ?_, fun k hk => (hfits.settled k hk).imp id nofun, nofun, fun k r hk => ?_,
      nofun, fun k hk => ?_, fun k hk => hfits.fresh k (by omega), fun k hk => ?_⟩
    · rcases (hmem _).mp hk with hk | hk
      · exact absurd (hfits.queued k hk) nofun
      · have hround : k = s.made f := congrArg Parker.round hk
        rw [hround]
        rfl
    · cases hk
      exact .inl ((hmem _).mpr (.inr rfl))
    · refine ⟨(hfits.outcome k r hk).1, fun h => ?_⟩
      cases h
      exact hreturns r hk
    · cases hk
      exact Nat.lt_succ_self _
    · cases hk
      exact hgone
  · rw [append_assoc]
    refine nodup_middle.mpr (nodup_cons.mpr ⟨fun h => ?_, hI.nodup⟩)
    rcases mem_append.mp h with h | h
    · exact absurd (hfits.queued _ h) nofun
    · exact hremoved h
  · exact .inl ((hmem x).mpr (.inl hx))
  · rw [hpc]
    exact nofun
  · exact mem_map_of_mem ((hmem _).mpr (.inr rfl))

theorem Inv.remove {w : Wait} {k : ℕ} (hpc : s.pc f = .round w k .removing) : Inv kind (s.remove f w k) := by
  have hfits := hI.fits f
  have hterms := hI.terms f
  have hf : s.lock.holder = some f := hI.holds f (by rw [hpc]; rfl)
  rw [hpc] at hfits hterms
  -- A party has one parker in the queue at most, that of this round.
  have hmine : ∀ j, ⟨f, j⟩ ∈ s.waiters → j = k := by
    intro j hj
    have hq := hfits.queued j hj
    cases hq
    rfl
  unfold State.remove
  split
  next hmem =>
    -- Still queued: no notice, and the parker is taken back.
    have hnot : (⟨f, k⟩ : Parker F) ∉ s.removed := disjoint_of_nodup_append hI.nodup hmem
    have hout : (⟨f, k⟩ : Parker F) ∉ s.waiters.erase ⟨f, k⟩ := hI.nodup.of_append_left.not_mem_erase
    refine hI.onQueue hf (fun d hd => ?_) ?_ ?_ hI.once hI.exact nofun
      (fun _ => hI.removed_eq hf (by rw [hpc]; rfl)) nofun (fun x hx hne => .inl ?_) (by rw [hpc]; exact nofun) nofun rfl
      (hterms.move nofun (fun _ => id) (fun _ => id) rfl rfl)
    · refine (hI.fits d).congr (fun j => ?_) (fun _ => Iff.rfl) (fun _ _ => Iff.rfl) fun _ => rfl
      exact mem_erase_of_ne fun h => hd (congrArg Parker.fiber h)
    · refine ⟨fun j hj => ?_, nofun, fun j hj => .inl ?_, nofun, hfits.outcome, nofun, hfits.known, hfits.fresh,
        nofun⟩
      · have hjk := hmine j (mem_of_mem_erase hj)
        subst hjk
        exact absurd hj hout
      · rcases hfits.settled j hj with h | h
        · exact h
        · cases h
          exact absurd hj hnot
    · exact hI.nodup.sublist (erase_sublist.append_right _)
    · exact (mem_erase_of_ne fun h => hne (congrArg Parker.fiber h)).mpr hx
  next hmem =>
    -- Not there any more: a notice has taken it, and the `wait` is to return `True`.
    have hpopped : ⟨f, k⟩ ∈ s.removed := (hfits.counted k rfl).resolve_left hmem
    refine hI.goto (fun _ => hf) ?_ nofun (fun _ => by rw [hpc]; rfl) (fun _ _ => .inr (by rw [hpc]; rfl)) nofun
      (by rw [hpc]; exact nofun) nofun nofun (hterms.move nofun (fun _ => id) (fun _ => id) rfl rfl)
    refine ⟨fun j hj => ?_, nofun, hfits.settled, fun j hj _ => ?_, hfits.outcome, nofun, hfits.known, hfits.fresh,
      nofun⟩
    · have hjk := hmine j hj
      subst hjk
      exact absurd hj hmem
    · cases hj
      exact hpopped

theorem Inv.pop {asked : ℤ} {queued rest woke : List (Parker F)} {n : ℕ}
    (hpc : s.pc f = .popping asked queued (n + 1) woke) (hw : s.waiters = x :: rest) :
    Inv kind ({ s with waiters := rest, removed := s.removed ++ [x] }.goto f
      (.popping asked queued n (woke ++ [x]))) := by
  have hf : s.lock.holder = some f := hI.holds f (by rw [hpc]; rfl)
  obtain ⟨hpop, hsplit⟩ := hI.popping f _ _ _ _ hpc
  have hnodup := hI.nodup
  have hqueued := hpop.split
  have hfits : ∀ d, Fits (x :: rest) s.removed s.returns s.gone (s.made d) d (s.pc d) := fun d => hw ▸ hI.fits d
  rw [hw] at hnodup hqueued
  -- The parker at the head is that of a `wait` in its round.
  have hparked : (s.pc x.fiber).parker = some x.round := (hfits x.fiber).queued x.round mem_cons_self
  have hself := (hfits f).pop
  rw [hpc] at hself
  refine hI.onQueue hf (fun d _ => (hfits d).pop) (hself.move rfl rfl nofun nofun rfl) ?_ hI.once hI.exact ?_
    nofun (fun y hy => ?_) (fun y hy _ => ?_) ?_ nofun rfl (.none nofun rfl rfl rfl rfl)
  · rw [← append_assoc, nodup_append_comm]
    exact hnodup
  · intro asked' queued' n' woke' heq
    cases heq
    refine ⟨⟨?_, ?_, hpop.nodup⟩, ?_⟩
    · rw [hqueued, append_assoc]
      rfl
    · rw [length_append, length_singleton, ← hpop.turns]
      omega
    · rw [hsplit, append_assoc]
  -- The taken parkers belong to others: the notifier itself is in no `wait`.
  · have hy' : (s.pc y.fiber).parker = some y.round := by
      rcases mem_append.mp hy with hy | hy
      · exact hI.handed f y (by rw [hpc]; exact hy)
      · rw [mem_singleton.mp hy]
        exact hparked
    refine ⟨fun h => ?_, hy'⟩
    rw [h, hpc] at hy'
    cases hy'
  · rw [hw] at hy
    rcases mem_cons.mp hy with rfl | hy
    · exact .inr (mem_append_right _ (mem_singleton_self _))
    · exact .inl hy
  · rw [hpc]
    exact fun y hy => mem_append_left _ hy

theorem Inv.popped {asked : ℤ} {queued woke : List (Parker F)} {n : ℕ}
    (hpc : s.pc f = .popping asked queued n woke) (hend : n = 0 ∨ s.waiters = []) :
    Inv kind (s.popped f asked queued woke) := by
  have hf : s.lock.holder = some f := hI.holds f (by rw [hpc]; rfl)
  obtain ⟨hpop, hsplit⟩ := hI.popping f _ _ _ _ hpc
  have hexact : Notice.Exact ⟨some asked, queued, woke⟩ := by
    refine ⟨?_, hpop.nodup⟩
    show woke = queued.take asked.toNat
    rw [hpop.split, ← hpop.turns]
    -- Either all that was asked for is taken, or all that there was.
    rcases hend with rfl | hnil
    · rw [Nat.zero_add, take_left]
    · rw [hnil, append_nil, take_of_length_le (Nat.le_add_left ..)]
  have hflat : s.removed = (s.notices ++ [Notice.mk (some asked) queued woke]).flatMap Notice.woke := by
    rw [flatMap_append, hsplit]
    simp
  have hself := hI.fits f
  rw [hpc] at hself
  -- The next place has the taken parkers in hand, or there are none.
  have hstep : ∀ {p : Pc F}, p.parker = none → p.pending = none → p.running = none → p.handle = none →
      p.ended = none → (∀ asked queued n woke, p ≠ .popping asked queued n woke) → p.hand = woke → p.lined = false →
      p.asleep = false → Terms kind s.lock.count s.now (s.entry f) p →
      Inv kind ({ s with notices := s.notices ++ [Notice.mk (some asked) queued woke] }.goto f p) := by
    intro p hparker hpending hrunning hhandle hended hpops hhand hlined hsleep hterms
    refine hI.onQueue hf (fun d _ => hI.fits d) (hself.move hparker hpending (fun k hk => ?_) (fun k hk => ?_) hended)
      hI.nodup hI.once (fun y hy => ?_) (fun asked queued n woke hp => absurd hp (hpops asked queued n woke))
      (fun _ => hflat) (fun y hy => ?_) (fun y hy _ => .inl hy) ?_ (fun h => ?_) hsleep hterms
    · rw [hrunning] at hk
      cases hk
    · rw [hhandle] at hk
      cases hk
    · rcases mem_append.mp hy with hy | hy
      · exact hI.exact y hy
      · rw [mem_singleton.mp hy]
        exact hexact
    · rw [hhand] at hy
      have hy' := hI.handed f y (by rw [hpc]; exact hy)
      refine ⟨fun h => ?_, hy'⟩
      rw [h, hpc] at hy'
      cases hy'
    · rw [hpc, hhand]
      exact fun y hy => hy
    · rw [hlined] at h
      cases h
  simp only [State.popped]
  split
  next hnil => exact hstep rfl rfl rfl rfl rfl nofun hnil.symm rfl rfl (.none nofun rfl rfl rfl rfl)
  next =>
    exact hstep rfl rfl rfl rfl rfl nofun (by simp [Pc.hand]) rfl rfl (.none nofun rfl rfl rfl rfl)

theorem Inv.notifyAll (hpc : s.pc f = .idle) (hf : s.lock.holder = some f) : Inv kind (s.notifyAll f) := by
  have hsplit := hI.removed_eq hf (by rw [hpc]; rfl)
  have hall : ∀ d, Fits [] (s.removed ++ s.waiters) s.returns s.gone (s.made d) d (s.pc d) := by
    intro d
    apply Fits.popAll
    rw [append_nil]
    exact hI.fits d
  have hself := hall f
  rw [hpc] at hself
  refine hI.onQueue hf (fun d _ => hall d) (hself.move rfl rfl nofun nofun rfl) ?_ hI.once (fun y hy => ?_) nofun
    (fun _ => ?_) (fun y hy => ?_) (fun y hy _ => .inr ?_) (by rw [hpc]; exact nofun) nofun rfl
    (.none nofun rfl rfl rfl rfl)
  · rw [nil_append, nodup_append_comm]
    exact hI.nodup
  · rcases mem_append.mp hy with hy | hy
    · exact hI.exact y hy
    · rw [mem_singleton.mp hy]
      exact ⟨take_length.symm, hI.nodup_fibers⟩
  · rw [flatMap_append, hsplit]
    simp
  · have hmem : y ∈ s.waiters := by simpa [Pc.hand] using hy
    have hparked := (hI.fits y.fiber).queued y.round hmem
    refine ⟨fun h => ?_, hparked⟩
    rw [h, hpc] at hparked
    cases hparked
  · exact mem_append_left _ hy

theorem Inv.restore {w : Wait} {k : ℕ} {r : Bool} (hpc : s.pc f = .restoring w k r) : Inv kind ({ s with
      lock := s.lock.setCount kind w.saved
      returns := s.returns ++ [(Parker.mk f k, r)] }.goto f (.returned (.waited k r))) := by
  have hf : s.lock.holder = some f := hI.holds f (by rw [hpc]; rfl)
  have hfits := hI.fits f
  have hterms := hI.terms f
  rw [hpc] at hfits hterms
  have hmem : ∀ y, y ∈ s.returns ++ [(Parker.mk f k, r)] ↔ y ∈ s.returns ∨ y = (⟨f, k⟩, r) := fun y => by
    rw [mem_append, mem_singleton]
  -- The parker of this round has not returned before.
  have hnew : ∀ r', (⟨f, k⟩, r') ∉ s.returns := fun r' h => (hfits.outcome k r' h).2 rfl
  have hr : r = true ↔ ⟨f, k⟩ ∈ s.removed := by
    cases r with
    | true => exact iff_of_true rfl (hfits.won k rfl rfl)
    | false =>
      refine iff_of_false nofun fun h => ?_
      exact (hfits.settled k h).elim (hnew true) nofun
  obtain ⟨hsaved, hplain⟩ := hterms.saved w.saved rfl
  -- A plain lock has depth 1 anyway; a recursive one gets back what `wait` saved.
  have hdepth : (s.lock.setCount kind w.saved).count = (s.entry f).depth := by
    cases kind with
    | lock =>
      show s.lock.count = _
      rw [hI.plain rfl, hplain rfl]
    | rlock => exact hsaved
  have hlock := hI.setCount w.saved (show (s.pc f).holds = true by rw [hpc]; rfl) (by rw [hpc]; rfl)
  refine hlock.onQueue ?_ (fun d hd => ?_) ?_ hI.nodup ?_ hI.exact nofun (fun _ => hI.removed_eq hf (by rw [hpc]; rfl))
    nofun (fun y hy _ => .inl hy) ?_ nofun rfl ?_
  · cases kind <;> exact hf
  · refine (hI.fits d).congr (fun _ => Iff.rfl) (fun _ => Iff.rfl) (fun j r' => ?_) fun _ => rfl
    rw [hmem, or_iff_left]
    exact fun h => hd (congrArg (fun y => y.1.fiber) h)
  · refine ⟨hfits.queued, nofun, fun j hj => .inl ?_, nofun, fun j r' hj => ⟨?_, nofun⟩, fun j r' hj => ?_, nofun,
      fun j hj => ?_, nofun⟩
    · rw [hmem]
      rcases hfits.settled j hj with h | h
      · exact .inl h
      · cases r with
        | true =>
          cases h
          exact .inr rfl
        | false => cases h
    · rcases (hmem _).mp hj with hj | hj
      · exact (hfits.outcome j r' hj).1
      · cases hj
        exact hr
    · cases hj
      exact (hmem _).mpr (.inr rfl)
    · obtain ⟨hremoved, hreturns, hgone⟩ := hfits.fresh j hj
      refine ⟨hremoved, fun r' h => ?_, hgone⟩
      rcases (hmem _).mp h with h | h
      · exact hreturns r' h
      · cases h
        have := hfits.known k rfl
        omega
  · rw [map_append, nodup_append_comm]
    refine nodup_cons.mpr ⟨fun h => ?_, hI.once⟩
    obtain ⟨⟨y, r'⟩, hy, heq⟩ := mem_map.mp h
    cases heq
    exact hnew r' hy
  · show ∀ y ∈ (s.pc f).hand, _
    rw [hpc]
    exact nofun
  · refine ⟨nofun, nofun, nofun, fun hl => hterms.late ?_, fun _ _ => hdepth⟩
    cases r with
    | true => cases hl
    | false => rfl

/-! ## Every step -/

theorem Inv.round {foreign : F → Bool} {w : Wait} {k : ℕ} {x : Stage}
    (hpc : s.pc f = .round w k x) (h : s.round kind foreign f w k x = some t) : Inv kind t := by
  have hholds : x.holds = true → s.lock.holder = some f := fun hx => hI.holds f (by rw [hpc]; exact hx)
  have hself : ∀ y : Stage, ((s.goto f (.round w k y)).pc f) = .round w k y := fun y => State.goto_self
  cases x with
  | counting =>
    cases h
    have hcount := hI.setCount 1 (show (s.pc f).holds = true by rw [hpc]; rfl) (by rw [hpc]; rfl)
    refine hcount.turn hpc (fun _ => ?_) id (fun _ => rfl) nofun
    have := hholds rfl
    cases kind <;> exact this
  | releasing =>
    cases h
    -- The lock is released only with the parker in the queue.
    have hlined := hI.lined f (by rw [hpc]; rfl)
    have hmoved := hI.turn (y := .testing) hpc nofun id nofun fun _ => .inr hlined
    exact hmoved.release (hholds rfl) (by rw [hself]; rfl)
  | testing =>
    simp only [State.round] at h
    split at h <;> cases h
    · exact hI.turn hpc nofun id nofun fun _ => .inl rfl
    · split
      · exact hI.turn hpc nofun id nofun fun _ => .inl rfl
      · exact hI.turn hpc nofun id nofun nofun
  | waiting =>
    simp only [State.round] at h
    split at h <;> cases h
    · have hmoved := hI.turn (y := .leaving) hpc nofun id nofun nofun
      exact hmoved.credit (by rw [hself]; rfl)
    · exact hI.turn hpc nofun id nofun fun _ => .inl rfl
  | parked =>
    cases h
    have hmoved := hI.turn (y := .leaving) hpc nofun id nofun nofun
    exact hmoved.credit (by rw [hself]; rfl)
  | leaving =>
    cases h
    have hmoved := hI.turn (y := .acquiring) hpc nofun nofun nofun nofun
    -- The parker is released before the lock is taken back, and a late wake finds no handle.
    have hdropped := hmoved.drop (k := k) (by rw [hself]; rfl) (by rw [hself]; rfl)
    exact hdropped.credit (by rw [hself]; rfl)
  | acquiring =>
    obtain ⟨l, hl, rfl⟩ := Option.map_eq_some_iff.mp h
    have hlock := hI.acquire hl (by rw [hpc]; rfl)
    exact hlock.turn hpc (fun _ => (Lock.acquire_eq_some hl).2.1) nofun nofun nofun
  | removing =>
    cases h
    exact hI.remove hpc

theorem Inv.goOn (hold : (s.pc f).parker = none ∧ (s.pc f).pending = none ∧ (s.pc f).pops = false)
    (hnew : p.parker = none ∧ p.pending = none ∧ p.running = none ∧ p.handle = none ∧ p.ended = none)
    (hplace : p.pops = false ∧ p.lined = false ∧ p.asleep = false)
    (hholds : p.holds = true → s.lock.holder = some f) (hhand : ∀ x ∈ p.hand, x ∈ (s.pc f).hand)
    (hwake : ∀ x ∈ (s.pc f).hand, x ∈ p.hand ∨ (s.pc x.fiber).asleep = false ∨ 0 < s.credit x.fiber)
    (hterms : Terms kind s.lock.count s.now (s.entry f) p) : Inv kind (s.goto f p) := by
  obtain ⟨hparker, hpending, hpops⟩ := hold
  obtain ⟨hparker', hpending', hrunning', hhandle', hended'⟩ := hnew
  obtain ⟨hpops', hlined', hasleep'⟩ := hplace
  refine hI.goto hholds ((hI.fits f).move (hparker'.trans hparker.symm) (hpending'.trans hpending.symm) (fun k hk => ?_)
    (fun k hk => ?_) hended') (fun asked queued n woke hp => ?_) (fun _ => hpops) (fun k hk => ?_) hhand hwake
    (fun h => ?_) (fun h => ?_) hterms
  · rw [hrunning'] at hk
    cases hk
  · rw [hhandle'] at hk
    cases hk
  · rw [hp] at hpops'
    cases hpops'
  · rw [hparker] at hk
    cases hk
  · rw [hlined'] at h
    cases h
  · rw [hasleep'] at h
    cases h

omit [DecidableEq F] in
theorem Inv.awake_of_gone (hx : x ∈ (s.pc f).hand) (hgone : s.gone x = true) : (s.pc x.fiber).asleep = false := by
  rw [Bool.eq_false_iff]
  intro hasleep
  have hhandle := Pc.handle_of_asleep hasleep (hI.handed f x hx)
  rw [show s.gone x = false from (hI.fits x.fiber).handle x.round hhandle] at hgone
  cases hgone

theorem Inv.collect {foreign : F → Bool} {ps inmem rest : List (Parker F)}
    (hpc : s.pc f = .collecting (x :: ps) inmem rest) :
    Inv kind (s.goto f (if foreign x.fiber then .collecting ps inmem (rest ++ [x])
      else if s.gone x then .collecting ps inmem rest
      else .collecting ps (inmem ++ [x]) rest)) := by
  have hf : s.lock.holder = some f := hI.holds f (by rw [hpc]; rfl)
  have hx : x ∈ (s.pc f).hand := by
    rw [hpc]
    exact mem_append_left _ mem_cons_self
  -- A parker that is dropped from the hand needs no wake.
  have hmove : ∀ inmem' rest', (∀ y ∈ ps ++ (inmem' ++ rest'), y ∈ x :: ps ++ (inmem ++ rest)) →
      (∀ y ∈ x :: ps ++ (inmem ++ rest), y ∈ ps ++ (inmem' ++ rest') ∨ (s.pc y.fiber).asleep = false) →
      Inv kind (s.goto f (.collecting ps inmem' rest')) := by
    intro inmem' rest' hsub hsup
    refine hI.goOn (by rw [hpc]; exact ⟨rfl, rfl, rfl⟩) ⟨rfl, rfl, rfl, rfl, rfl⟩ ⟨rfl, rfl, rfl⟩ (fun _ => hf) ?_ ?_
      (.none nofun rfl rfl rfl rfl)
    · rw [hpc]
      exact hsub
    · rw [hpc]
      exact fun y hy => (hsup y hy).imp id .inl
  split
  · refine hmove _ _ (fun y hy => ?_) fun y hy => .inl ?_
    · simp only [mem_append, mem_cons] at hy ⊢
      grind
    · simp only [mem_append, mem_cons] at hy ⊢
      grind
  split
  next hgone =>
    refine hmove _ _ (fun y hy => mem_cons_of_mem x hy) fun y hy => ?_
    rcases mem_cons.mp hy with rfl | hy
    · exact .inr (hI.awake_of_gone hx hgone)
    · exact .inl hy
  next =>
    refine hmove _ _ (fun y hy => ?_) fun y hy => .inl ?_
    · simp only [mem_append, mem_cons] at hy ⊢
      grind
    · simp only [mem_append, mem_cons] at hy ⊢
      grind

theorem Inv.wake {foreign : F → Bool} {ps : List (Parker F)} (hpc : s.pc f = .waking (x :: ps)) :
    Inv kind ((if foreign x.fiber && s.gone x then s else s.wakeUp x.fiber).goto f (.waking ps)) := by
  have hmove : ∀ u : State F, Inv kind u → u.pc = s.pc → u.lock = s.lock →
      ((s.pc x.fiber).asleep = false ∨ 0 < u.credit x.fiber) → Inv kind (u.goto f (.waking ps)) := by
    intro u hu hupc hulock hx
    have hpc' : u.pc f = .waking (x :: ps) := by rw [hupc, hpc]
    refine hu.goOn (by rw [hpc']; exact ⟨rfl, rfl, rfl⟩) ⟨rfl, rfl, rfl, rfl, rfl⟩ ⟨rfl, rfl, rfl⟩
      (fun _ => hu.holds f (by rw [hpc']; rfl)) ?_ ?_ (.none nofun rfl rfl rfl rfl)
    · rw [hpc']
      exact fun y hy => mem_cons_of_mem x hy
    · rw [hpc']
      intro y hy
      rcases mem_cons.mp hy with rfl | hy
      · rw [hupc]
        exact .inr hx
      · exact .inl hy
  split
  next hgone =>
    refine hmove s hI rfl rfl (.inl (hI.awake_of_gone (f := f) ?_ (Bool.and_eq_true_iff.mp hgone).2))
    rw [hpc]
    exact mem_cons_self
  next =>
    refine hmove _ hI.wakeUp rfl rfl (.inr ?_)
    show 0 < update s.credit x.fiber (s.credit x.fiber + 1) x.fiber
    rw [update_self]
    exact Nat.succ_pos _

theorem Inv.next {foreign : F → Bool} (h : s.next kind foreign f = some t) : Inv kind t := by
  have hterms := hI.terms f
  have hnoHand : ∀ {q : Pc F}, (s.pc f).hand = [] →
      ∀ x ∈ (s.pc f).hand, x ∈ q.hand ∨ (s.pc x.fiber).asleep = false ∨ 0 < s.credit x.fiber := by
    intro q hq
    rw [hq]
    exact nofun
  unfold State.next at h
  split at h
  · cases h
  -- The deadline is set once, from the time of the call.
  next timeout saved hpc =>
    cases h
    rw [hpc] at hterms
    obtain ⟨htimeout, hbegan⟩ := hterms.entered _ _ rfl
    refine hI.goOn (by rw [hpc]; exact ⟨rfl, rfl, rfl⟩) ⟨rfl, rfl, rfl, rfl, rfl⟩ ⟨rfl, rfl, rfl⟩
      (fun _ => hI.holds f (by rw [hpc]; rfl)) nofun (hnoHand (by rw [hpc]; rfl))
      ⟨nofun, hterms.saved, fun x hx => ?_, nofun, nofun⟩
    obtain ⟨τ, hτ, rfl⟩ := Option.map_eq_some_iff.mp hx
    refine ⟨τ, htimeout.trans hτ, ?_⟩
    omega
  -- The section that queues a new parker, and the park.
  next w hpc =>
    cases h
    exact hI.enqueue hpc
  next w k x hpc => exact hI.round hpc h
  -- The park is over without a notice: the clock decides whether there is another round.
  next w k hpc =>
    rw [hpc] at hterms
    have hf : s.lock.holder = some f := hI.holds f (by rw [hpc]; rfl)
    have hmaking : Inv kind (s.goto f (.making w)) :=
      hI.goOn (by rw [hpc]; exact ⟨rfl, rfl, rfl⟩) ⟨rfl, rfl, rfl, rfl, rfl⟩ ⟨rfl, rfl, rfl⟩ (fun _ => hf) nofun
        (hnoHand (by rw [hpc]; rfl)) (hterms.move nofun (fun _ => id) (fun _ => id) rfl rfl)
    split at h <;> cases h
    next => exact hmaking
    next x hx =>
      split
      next hlate =>
        have hfits := hI.fits f
        rw [hpc] at hfits
        refine hI.goto (fun _ => hf) (hfits.move rfl rfl (fun _ => id) nofun rfl) nofun (fun _ => by rw [hpc]; rfl)
          (by rw [hpc]; exact nofun) nofun (hnoHand (by rw [hpc]; rfl)) nofun nofun
          ⟨nofun, hterms.saved, hterms.due, fun _ => ?_, nofun⟩
        obtain ⟨τ, hτ, hle⟩ := hterms.due x hx
        exact ⟨τ, hτ, le_trans hle hlate⟩
      next => exact hmaking
  -- The lock is back, and gets its old depth.
  next w k r hpc =>
    cases h
    exact hI.restore hpc
  -- `notify` takes its next parker, or has all that it asked for.
  next asked queued n woke hpc =>
    cases n with
    | zero =>
      cases h
      exact hI.popped hpc (.inl rfl)
    | succ n =>
      cases hw : s.waiters with
      | nil =>
        rw [hw] at h
        cases h
        exact hI.popped hpc (.inr hw)
      | cons x rest =>
        rw [hw] at h
        cases h
        exact hI.pop hpc hw
  -- The handles are collected and woken, fibers first.
  next x ps inmem rest hpc =>
    cases h
    exact hI.collect hpc
  next inmem rest hpc =>
    cases h
    refine hI.goOn (by rw [hpc]; exact ⟨rfl, rfl, rfl⟩) ⟨rfl, rfl, rfl, rfl, rfl⟩ ⟨rfl, rfl, rfl⟩
      (fun _ => hI.holds f (by rw [hpc]; rfl)) ?_ ?_ (.none nofun rfl rfl rfl rfl)
    · rw [hpc]
      exact fun y hy => hy
    · rw [hpc]
      exact fun y hy => .inl hy
  next x ps hpc =>
    cases h
    exact hI.wake hpc
  next hpc =>
    cases h
    exact hI.goOn (by rw [hpc]; exact ⟨rfl, rfl, rfl⟩) ⟨rfl, rfl, rfl, rfl, rfl⟩ ⟨rfl, rfl, rfl⟩
      (fun _ => hI.holds f (by rw [hpc]; rfl)) nofun (hnoHand (by rw [hpc]; rfl)) (.none nofun rfl rfl rfl rfl)
  next r hpc =>
    cases h
    exact hI.goOn (by rw [hpc]; exact ⟨rfl, rfl, rfl⟩) ⟨rfl, rfl, rfl, rfl, rfl⟩ ⟨rfl, rfl, rfl⟩
      nofun nofun (hnoHand (by rw [hpc]; rfl)) (.none nofun rfl rfl rfl rfl)

theorem Inv.call (hpc : s.pc f = .idle) (hf : s.lock.holder = some f) (c : Call) : Inv kind (s.call f c) := by
  have hfits := hI.fits f
  rw [hpc] at hfits
  cases c with
  | wait timeout =>
    have henter : Inv kind { s with entry := update s.entry f (Entry.mk timeout s.now s.lock.count) } := by
      refine { hI with terms := fun d => ?_ }
      by_cases hdf : d = f
      · subst hdf
        rw [show (_ : State F).pc d = .idle from hpc]
        exact .none nofun rfl rfl rfl rfl
      · show Terms kind s.lock.count s.now (update s.entry f _ d) (s.pc d)
        rw [update_of_ne hdf]
        exact hI.terms d
    refine henter.goOn (by rw [show (_ : State F).pc f = .idle from hpc]; exact ⟨rfl, rfl, rfl⟩)
      ⟨rfl, rfl, rfl, rfl, rfl⟩ ⟨rfl, rfl, rfl⟩ (fun _ => hf) nofun ?_ ?_
    · rw [show (_ : State F).pc f = .idle from hpc]
      exact nofun
    · show Terms kind s.lock.count s.now (update s.entry f _ f) _
      rw [update_self]
      refine ⟨fun _ _ heq => ?_, fun n hn => ?_, nofun, nofun, nofun⟩
      · cases heq
        exact ⟨rfl, le_rfl⟩
      · cases hn
        exact ⟨rfl, hI.plain⟩
  | notify n =>
    refine hI.goto (fun _ => hf) (hfits.move rfl rfl nofun nofun rfl) (fun asked queued m woke heq => ?_) nofun
      (by rw [hpc]; exact nofun) nofun (by rw [hpc]; exact nofun) nofun nofun (.none nofun rfl rfl rfl rfl)
    cases heq
    refine ⟨⟨rfl, rfl, hI.nodup_fibers⟩, ?_⟩
    rw [append_nil]
    exact hI.removed_eq hf (by rw [hpc]; rfl)
  | notifyAll => exact hI.notifyAll hpc hf

theorem Inv.step {foreign : F → Bool} {a : Action F}
    (h : CoCondition.step kind foreign s a = some t) : Inv kind t := by
  cases a with
  | acquire f =>
    simp only [CoCondition.step] at h
    split at h
    next hpc =>
      obtain ⟨l, hl, rfl⟩ := Option.map_eq_some_iff.mp h
      exact hI.acquire hl (by rw [hpc]; rfl)
    next => cases h
  | release f =>
    simp only [CoCondition.step] at h
    split at h <;> cases h
    next hpc => exact hI.release hpc.2 (by rw [hpc.1]; rfl)
  | call f c =>
    simp only [CoCondition.step] at h
    split at h <;> cases h
    next hpc => exact hI.call hpc.1 hpc.2 c
  | next f => exact hI.next h
  | elsewhere f =>
    simp only [CoCondition.step] at h
    split at h <;> cases h
    next hf => exact hI.credit (Bool.eq_false_iff.mpr hf)
  | poke f =>
    cases h
    exact hI.wakeUp
  | tick d =>
    cases h
    have hlater : s.now ≤ s.now + d := Int.le_add_of_nonneg_right (Int.natCast_nonneg d)
    exact { hI with terms := fun f => (hI.terms f).congr (fun _ => rfl) hlater }

end

variable {foreign : F → Bool}

theorem inv_of_reachable (h : (condition kind foreign).Reachable s) : Inv kind s :=
  h.invariant (fun _ hs => Inv.init hs) fun _ _ _ hI _ hs => hI.step hs

end Steps

def unused : State (Fin 3) := ⟨⟨none, 0⟩, [], fun _ => false, fun _ => 0, fun _ => .idle, fun _ => 0, 0,
  fun _ => ⟨none, 0, 0⟩, [], [], []⟩

end Runloom.CoCondition
