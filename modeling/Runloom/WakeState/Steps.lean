import Runloom.WakeState.Invariant

/-!
# Every step keeps one place per fiber

One lemma per operation of the source: the wake loop, the enqueue, the pull and its claim, the
release after a park or a yield, the sweep and the timer claim.
-/

namespace Runloom.WakeState

open Transition List
open State (goto)

variable {n : ℕ} {s t : State n} {P : ℕ → Place n} {a : Actor n} {g : ℕ} {c : Pc} {w : Ws}

@[simp] theorem goto_pc (s : State n) (a : Actor n) (c : Pc) : (s.goto a c).pc = update s.pc a c := rfl

@[simp] theorem setWs_ws (s : State n) (g : ℕ) (w : Ws) : (s.setWs g w).ws = Function.update s.ws g w := rfl

theorem PInv.goto_aside (hP : PInv s P) (hold : (s.pc a).hand = none) (hnew : c.hand = none)
    (hlock : c.locked ↔ (s.pc a).locked) (hahead : c.lenAhead = (s.pc a).lenAhead)
    (hhelper : ∀ i, a = .helper i → c.ofHelper)
    (hrefs : ∀ x, c.queueRefs x = (s.pc a).queueRefs x)
    (hyield : ∀ x q, c ≠ .yieldStore x q true) : PInv (s.goto a c) P := by
  refine hP.aside (t := s.goto a c) hold hnew rfl rfl rfl rfl (hP.lock_keep hlock) ?_ hhelper ?_ hyield
  · rw [lenAhead_keep (t := s.goto a c) rfl rfl hahead]
    exact hP.len
  · intro x
    rw [hrefs x]
    show s.refs x = _
    omega

variable {h : Fin n}

section

variable (hP : PInv s P)
include hP

theorem PInv.addRef_aside (hold : (s.pc (.hub h)).hand = none)
    (hnew : c.hand = none) (hlock : c.locked ↔ (s.pc (.hub h)).locked)
    (hahead : c.lenAhead = (s.pc (.hub h)).lenAhead) {d : ℤ}
    (hrefs : ∀ x, c.queueRefs x = (s.pc (.hub h)).queueRefs x + if g = x then d else 0)
    (hyield : ∀ x q, c ≠ .yieldStore x q true) : PInv ((s.addRef g d).goto (.hub h) c) P := by
  refine hP.aside (t := (s.addRef g d).goto (.hub h) c) hold hnew rfl rfl rfl rfl
    (hP.lock_keep hlock) ?_ (by simp) ?_ hyield
  · rw [lenAhead_keep (s := s) (t := (s.addRef g d).goto (.hub h) c) rfl rfl hahead]
    exact hP.len
  · intro x
    rw [hrefs x]
    show update s.refs g (s.refs g + d) x = _
    by_cases hx : g = x
    · subst hx
      rw [update_self, if_pos rfl]
      omega
    · rw [update_of_ne (Ne.symm hx), if_neg hx]
      omega

theorem Move.of_hand {p : Place n} (hold : (s.pc a).hand = some g)
    (hnew : ∀ x, c.hand = some x → x = g) (hto : p = .held a ↔ c.hand = some g)
    (hother : ∀ b, p = .held b → b = a) : Move s P a g c p where
  old := by
    intro x hx
    exact (Option.some.inj (hold.symm.trans hx)).symm
  new := hnew
  fromPlace := by
    intro b hb
    have hPg : P g = .held a := (hP.hand a g).mpr hold
    exact (Place.held.inj (hPg.symm.trans hb)).symm
  toPlace := hto
  notOther := hother

theorem PInv.keep (hold : (s.pc a).hand = some g) (hnew : c.hand = some g)
    (hpc : t.pc = update s.pc a c) (hws : t.ws = update s.ws g w)
    (hw : c.wsOk w) (hrunq : t.runq = s.runq) (hfifo : t.fifo = s.fifo)
    (hlock : ∀ b, t.lock = some b ↔ (update s.pc a c b).locked)
    (hlen : t.len = t.runq.length + lenAhead t) (hhelper : ∀ i, a = .helper i → c.ofHelper)
    (hne : ∀ x, x ≠ g → c.queueRefs x = 0 ∧ (s.pc a).queueRefs x = 0)
    (hrefs : ∀ x, t.refs x = s.refs x + c.queueRefs x - (s.pc a).queueRefs x)
    (hyield : ∀ x q, c ≠ .yieldStore x q true) : PInv t P := by
  have hPg : P g = .held a := (hP.hand a g).mpr hold
  have hself : update P g (.held a) = P := by
    rw [← hPg]
    exact update_eq_self g P
  have hM : Move s P a g c (.held a) :=
    .of_hand hP hold (by simp [hnew]) (by simp [hnew]) fun b hb => (Place.held.inj hb).symm
  rw [← hself]
  apply hP.move hM hpc hws
  · simpa only [PlaceWs, update_self] using hw
  · rw [hself, hrunq]
    exact hP.runq
  · rw [hself, hfifo]
    exact hP.fifo
  · exact hlock
  · exact hlen
  · intro x hx
    rw [(hne x hx).1, (hne x hx).2]
  · exact hhelper
  · intro x
    rw [hrefs x, hrunq]
    omega
  · intro h q _ hc
    exact absurd hc (hyield g q)
  · intro x q hc
    exact absurd hc (hyield x q)
  · intro h hPg'
    rw [hPg] at hPg'
    cases hPg'

theorem PInv.keep_ws (hold : (s.pc a).hand = some g) (hnew : c.hand = some g)
    (hw : c.wsOk w) (hlock : c.locked ↔ (s.pc a).locked)
    (hahead : c.lenAhead = (s.pc a).lenAhead) (hhelper : ∀ i, a = .helper i → c.ofHelper)
    (hne : ∀ x, x ≠ g → c.queueRefs x = 0 ∧ (s.pc a).queueRefs x = 0)
    (hrefs : c.queueRefs g = (s.pc a).queueRefs g)
    (hyield : ∀ x q, c ≠ .yieldStore x q true) : PInv ((s.setWs g w).goto a c) P := by
  refine hP.keep (t := (s.setWs g w).goto a c) hold hnew rfl rfl hw rfl rfl (hP.lock_keep hlock)
    ?_ hhelper hne ?_ hyield
  · rw [lenAhead_keep (s := s) (t := (s.setWs g w).goto a c) rfl rfl hahead]
    exact hP.len
  · intro x
    show s.refs x = _
    by_cases hx : x = g
    · subst hx
      rw [hrefs]
      omega
    · rw [(hne x hx).1, (hne x hx).2]
      omega

theorem PInv.keep_goto (hold : (s.pc a).hand = some g) (hnew : c.hand = some g)
    (hw : c.wsOk (s.ws g)) (hlock : c.locked ↔ (s.pc a).locked)
    (hahead : c.lenAhead = (s.pc a).lenAhead) (hhelper : ∀ i, a = .helper i → c.ofHelper)
    (hne : ∀ x, x ≠ g → c.queueRefs x = 0 ∧ (s.pc a).queueRefs x = 0)
    (hrefs : c.queueRefs g = (s.pc a).queueRefs g)
    (hyield : ∀ x q, c ≠ .yieldStore x q true) : PInv (s.goto a c) P := by
  have hstay : (s.setWs g (s.ws g)).goto a c = s.goto a c := by
    simp only [State.setWs, goto, update_eq_self]
  rw [← hstay]
  exact hP.keep_ws hold hnew hw hlock hahead hhelper hne hrefs hyield

end

/-! ## Entries -/

section
variable {l : List ℕ} {p q : Place n}

theorem count_keep (hl : ∀ x, l.count x = if P x = q then 1 else 0) (hold : P g ≠ q)
    (hnew : p ≠ q) (x : ℕ) : l.count x = if update P g p x = q then 1 else 0 := by
  rw [hl x]
  by_cases hx : x = g
  · subst hx
    rw [update_self, if_neg hold, if_neg hnew]
  · rw [update_of_ne hx]

theorem count_concat (hl : ∀ x, l.count x = if P x = q then 1 else 0) (hold : P g ≠ q) (x : ℕ) :
    (l ++ [g]).count x = if update P g q x = q then 1 else 0 := by
  rw [count_append, hl x]
  by_cases hx : x = g
  · subst hx
    simp [hold]
  · simp [update_of_ne hx, Ne.symm hx]

theorem count_tail (hl : ∀ x, (g :: l).count x = if P x = q then 1 else 0) (hnew : p ≠ q)
    (x : ℕ) : l.count x = if update P g p x = q then 1 else 0 := by
  have hlx := hl x
  rw [count_cons] at hlx
  by_cases hx : x = g
  · subst hx
    rw [update_self, if_neg hnew]
    simp only [beq_self_eq_true, if_true] at hlx
    split at hlx <;> omega
  · rw [update_of_ne hx]
    simpa [Ne.symm hx] using hlx

theorem place_of_mem_head (hl : ∀ x, (g :: l).count x = if P x = q then 1 else 0) : P g = q := by
  have hlg := hl g
  rw [count_cons_self] at hlg
  by_contra hne
  rw [if_neg hne] at hlg
  omega

end

/-! ## Changes of place -/

theorem PInv.place_of_parked (hP : PInv s P) (hw : s.ws g = .parked) : P g = .parked := by
  have hws := hP.ws g
  rw [hw] at hws
  cases hPg : P g with
  | parked => rfl
  | listed | fifo h => simp [hPg, PlaceWs] at hws
  | held b =>
    have hhand := (hP.hand b g).mp hPg
    rw [hPg, PlaceWs] at hws
    cases hb : s.pc b <;> simp [hb, Pc.hand, Pc.wsOk] at hhand hws

theorem PInv.lenAhead_goto (hP : PInv s P) (hahead : c.lenAhead = (s.pc a).lenAhead)
    (hpc : t.pc = update s.pc a c) (hlock : t.lock = s.lock) (hlen : t.len = s.len)
    (hrunq : t.runq = s.runq) : t.len = t.runq.length + lenAhead t := by
  rw [lenAhead_keep hpc hlock hahead, hlen, hrunq]
  exact hP.len

theorem PInv.claim_parked (hP : PInv s P) (hw : s.ws g = .parked) (hold : (s.pc a).hand = none)
    (hnew : c.hand = some g) (hok : c.wsOk w) (hlock : ¬c.locked) (hlock' : ¬(s.pc a).locked)
    (hahead : c.lenAhead = (s.pc a).lenAhead) (hhelper : ∀ i, a = .helper i → c.ofHelper)
    (hrefs : ∀ x, c.queueRefs x = 0 ∧ (s.pc a).queueRefs x = 0)
    (hyield : ∀ x q, c ≠ .yieldStore x q true) :
    PInv ((s.setWs g w).goto a c) (update P g (.held a)) := by
  have hPg := hP.place_of_parked hw
  have hM : Move s P a g c (.held a) := by
    refine ⟨by simp [hold], ?_, by simp [hPg], by simp [hnew], ?_⟩
    · intro x hx
      exact (Option.some.inj (hnew.symm.trans hx)).symm
    · intro b hb
      exact (Place.held.inj hb).symm
  refine hP.move (t := (s.setWs g w).goto a c) hM rfl rfl ?_ (count_keep hP.runq (by simp [hPg]) (by simp))
    (fun h => count_keep (hP.fifo h) (by simp [hPg]) (by simp))
    (hP.lock_keep (iff_of_false hlock hlock')) (hP.lenAhead_goto hahead rfl rfl rfl rfl)
    ?_ hhelper ?_ ?_ ?_ ?_
  · simpa only [PlaceWs, update_self] using hok
  · intro x _
    rw [(hrefs x).1, (hrefs x).2]
  · intro x
    rw [(hrefs x).1, (hrefs x).2]
    show s.refs x - s.runq.count x = _
    omega
  · intro h q _ hc
    exact absurd hc (hyield g q)
  · intro x q hc
    exact absurd hc (hyield x q)
  · intro h hf
    rw [hPg] at hf
    cases hf

theorem PInv.release_parked (hP : PInv s P) (hold : (s.pc a).hand = some g)
    (hnew : c.hand = none) (hlock : ¬c.locked) (hlock' : ¬(s.pc a).locked)
    (hahead : c.lenAhead = (s.pc a).lenAhead)
    (hrefs : ∀ x, c.queueRefs x = (s.pc a).queueRefs x)
    (hhelper : ∀ i, a = .helper i → c.ofHelper)
    (hyield : ∀ x q, c ≠ .yieldStore x q true) :
    PInv ((s.setWs g .parked).goto a c) (update P g .parked) := by
  have hPg : P g = .held a := (hP.hand a g).mpr hold
  have hM : Move s P a g c .parked := .of_hand hP hold (by simp [hnew]) (by simp [hnew]) (by simp)
  refine hP.move (t := (s.setWs g .parked).goto a c) hM rfl rfl rfl (count_keep hP.runq (by simp [hPg]) (by simp))
    (fun h => count_keep (hP.fifo h) (by simp [hPg]) (by simp))
    (hP.lock_keep (iff_of_false hlock hlock')) (hP.lenAhead_goto hahead rfl rfl rfl rfl)
    (fun x _ => hrefs x) hhelper ?_ ?_ ?_ ?_
  · intro x
    rw [hrefs x]
    show s.refs x - s.runq.count x = _
    omega
  · intro h q _ hc
    exact absurd hc (hyield g q)
  · intro x q hc
    exact absurd hc (hyield x q)
  · intro h hf
    rw [hPg] at hf
    cases hf

variable {q : Bool}

theorem PInv.link (hP : PInv s P) (hpc : s.pc a = .push g q .link) :
    PInv ({ s with runq := s.runq ++ [g] }.goto a (.push g q .len)) (update P g .listed) := by
  have hold : (s.pc a).hand = some g := by rw [hpc]; rfl
  have hPg : P g = .held a := (hP.hand a g).mpr hold
  have hw : s.ws g = .queued := by
    have hws := hP.ws g
    rwa [hPg, PlaceWs, hpc] at hws
  have hlock : s.lock = some a := (hP.lock a).mpr (by rw [hpc]; trivial)
  have hM : Move s P a g (.push g q .len) .listed :=
    Move.of_hand hP hold (by simp [Pc.hand]) (by simp [Pc.hand]) (by simp)
  apply hP.move (t := goto { s with runq := s.runq ++ [g] } a (.push g q .len)) (w := s.ws g) hM
    rfl (update_eq_self g s.ws).symm hw (count_concat hP.runq (by simp [hPg]))
    (fun h => count_keep (hP.fifo h) (by simp [hPg]) (by simp))
  · exact hP.lock_keep (by simp [hpc, Pc.locked])
  · -- the counter lags behind the list until the `len` access
    have hlen := hP.len
    rw [lenAhead_of_lock hlock, hpc] at hlen
    rw [lenAhead_of_lock (a := a) (by exact hlock), goto_pc, update_self]
    simp only [goto, length_append, length_singleton, Pc.lenAhead] at hlen ⊢
    omega
  · intro x hx
    simp [hpc, Pc.queueRefs, Ne.symm hx]
  · intro i hi
    have hhelper := hP.helper i
    rw [← hi, hpc] at hhelper
    cases q <;> exact hhelper
  · -- the reference the pusher took is the entry's now
    intro x
    show s.refs x - (s.runq ++ [g]).count x = _
    rw [count_append, count_singleton, hpc]
    by_cases hx : g = x
    · subst hx
      cases q <;> simp [Pc.queueRefs] <;> omega
    · simp [Pc.queueRefs, hx]
  · intro h q' _ hc
    cases hc
  · intro x q' hc
    cases hc
  · intro h hf
    rw [hPg] at hf
    cases hf

theorem PInv.pullTake {rest : List ℕ} (hP : PInv s P) (hpc : s.pc (.hub h) = .pullTake)
    (hrunq : s.runq = g :: rest) :
    PInv ({ s with runq := rest }.goto (.hub h) (.pullLen g)) (update P g (.held (.hub h))) := by
  have hcount := hP.runq
  rw [hrunq] at hcount
  have hPg : P g = .listed := place_of_mem_head hcount
  have hw : s.ws g = .queued := by
    have hws := hP.ws g
    rwa [hPg] at hws
  have hlock : s.lock = some (.hub h) := (hP.lock _).mpr (by rw [hpc]; trivial)
  have hM : Move s P (.hub h) g (.pullLen g) (.held (.hub h)) := by
    refine ⟨by simp [hpc, Pc.hand], ?_, by simp [hPg], by simp [Pc.hand], ?_⟩
    · intro x hx
      exact (Option.some.inj hx).symm
    · intro b hb
      exact (Place.held.inj hb).symm
  apply hP.move (t := goto { s with runq := rest } (.hub h) (.pullLen g)) (w := s.ws g) hM rfl
    (update_eq_self g s.ws).symm
  · rw [PlaceWs, update_self]
    exact hw
  · exact count_tail hcount (by simp)
  · exact fun h' => count_keep (hP.fifo h') (by simp [hPg]) (by simp)
  · exact hP.lock_keep (by simp [hpc, Pc.locked])
  · have hlen := hP.len
    rw [lenAhead_of_lock hlock, hpc, hrunq] at hlen
    rw [lenAhead_of_lock (a := .hub h) (by exact hlock), goto_pc, update_self]
    simp only [goto, length_cons, Pc.lenAhead] at hlen ⊢
    omega
  · intro x hx
    simp [hpc, Pc.queueRefs, Ne.symm hx]
  · intro i hi
    cases hi
  · intro x
    show s.refs x - rest.count x = _
    rw [hrunq, count_cons, hpc]
    by_cases hx : g = x
    · subst hx
      simp [Pc.queueRefs]
      omega
    · simp [Pc.queueRefs, hx]
  · intro h' q _ hc
    cases hc
  · intro x q hc
    cases hc
  · intro h' hf
    rw [hPg] at hf
    cases hf

theorem PInv.toFifo (hP : PInv s P) (hold : (s.pc (.hub h)).hand = some g)
    (hnew : c.hand = none) (hw : s.ws g = .running ∨ s.ws g = .runningWoken) (hlock : ¬c.locked)
    (hlock' : ¬(s.pc (.hub h)).locked) (hahead : c.lenAhead = (s.pc (.hub h)).lenAhead)
    (hrefs : ∀ x, c.queueRefs x = (s.pc (.hub h)).queueRefs x)
    (hyield : ∀ x q, c = .yieldStore x q true → x = g) :
    PInv ({ s with fifo := update s.fifo h (s.fifo h ++ [g]) }.goto (.hub h) c) (update P g (.fifo h)) := by
  have hPg : P g = .held (.hub h) := (hP.hand _ g).mpr hold
  have hM : Move s P (.hub h) g c (.fifo h) :=
    Move.of_hand hP hold (by simp [hnew]) (by simp [hnew]) (by simp)
  apply hP.move (t := goto { s with fifo := update s.fifo h (s.fifo h ++ [g]) } (.hub h) c)
    (w := s.ws g) hM rfl (update_eq_self g s.ws).symm hw
    (count_keep hP.runq (by simp [hPg]) (by simp))
  · intro h' x
    show (update s.fifo h (s.fifo h ++ [g]) h').count x = _
    by_cases hh : h' = h
    · subst hh
      rw [update_self]
      exact count_concat (hP.fifo h') (by simp [hPg]) x
    · rw [update_of_ne hh]
      exact count_keep (hP.fifo h') (by simp [hPg]) (by simpa using Ne.symm hh) x
  · exact hP.lock_keep (iff_of_false hlock hlock')
  · exact hP.lenAhead_goto hahead rfl rfl rfl rfl
  · exact fun x _ => hrefs x
  · intro i hi
    cases hi
  · intro x
    rw [hrefs x]
    show s.refs x - s.runq.count x = _
    omega
  · intro h' q hh _
    cases hh
    rfl
  · exact hyield
  · intro h' hf
    rw [hPg] at hf
    cases hf

theorem PInv.readyPop {rest : List ℕ} (hP : PInv s P) (hpc : s.pc (.hub h) = .idle)
    (hfifo : s.fifo h = g :: rest) :
    PInv ({ s with fifo := update s.fifo h rest }.goto (.hub h) (.running g false))
      (update P g (.held (.hub h))) := by
  have hcount := hP.fifo h
  rw [hfifo] at hcount
  have hPg : P g = .fifo h := place_of_mem_head hcount
  have hw : s.ws g = .running ∨ s.ws g = .runningWoken := by
    have hws := hP.ws g
    rwa [hPg] at hws
  have hM : Move s P (.hub h) g (.running g false) (.held (.hub h)) := by
    refine ⟨by simp [hpc, Pc.hand], ?_, by simp [hPg], by simp [Pc.hand], ?_⟩
    · intro x hx
      exact (Option.some.inj hx).symm
    · intro b hb
      exact (Place.held.inj hb).symm
  apply hP.move (t := goto { s with fifo := update s.fifo h rest } (.hub h) (.running g false))
    (w := s.ws g) hM rfl (update_eq_self g s.ws).symm
  · rw [PlaceWs, update_self]
    exact hw
  · exact count_keep hP.runq (by simp [hPg]) (by simp)
  · intro h' x
    show (update s.fifo h rest h').count x = _
    by_cases hh : h' = h
    · subst hh
      rw [update_self]
      exact count_tail hcount (by simp) x
    · rw [update_of_ne hh]
      exact count_keep (hP.fifo h') (by simpa [hPg] using Ne.symm hh) (by simp) x
  · exact hP.lock_keep (by simp [hpc, Pc.locked])
  · exact hP.lenAhead_goto (by rw [hpc]; rfl) rfl rfl rfl rfl
  · intro x _
    simp [hpc, Pc.queueRefs]
  · intro i hi
    cases hi
  · intro x
    show s.refs x - s.runq.count x = _
    simp [hpc, Pc.queueRefs]
  · intro h' q _ hc
    cases hc
  · intro x q hc
    cases hc
  · intro h' hf
    rw [hPg] at hf
    cases hf
    exact .inr rfl

/-! ## The operations -/

section

variable (hP : PInv s P)
include hP

theorem PInv.placeWs_woken
    (hw : s.ws g = .running ∧ w = .runningWoken ∨ s.ws g = .sweeping ∧ w = .sweepingWoken) :
    PlaceWs s.pc (P g) w := by
  have hws := hP.ws g
  cases hPg : P g with
  | parked | listed => rcases hw with ⟨hg, _⟩ | ⟨hg, _⟩ <;> simp [hPg, PlaceWs, hg] at hws
  | fifo h =>
    rcases hw with ⟨_, rfl⟩ | ⟨hg, _⟩
    · exact .inr rfl
    · simp [hPg, PlaceWs, hg] at hws
  | held b =>
    have hhand := (hP.hand b g).mp hPg
    rw [hPg, PlaceWs] at hws
    rw [PlaceWs]
    rcases hw with ⟨hg, rfl⟩ | ⟨hg, rfl⟩ <;>
      cases hb : s.pc b <;> simp_all [Pc.hand, Pc.wsOk]

theorem Inv.wakeStep {st : Ws} (hpc : s.pc a = .wake g st) : Inv (wakeStep s a g st) := by
  have haside : ∀ {u : State n} {c : Pc}, PInv u P → u.pc a = .wake g st → c.hand = none →
      c.ofHelper → ¬c.locked → c.lenAhead = 0 → (∀ x, c.queueRefs x = 0) → Inv (u.goto a c) := by
    intro u c hu hupc hhand hhelper hlock hahead hrefs
    refine ⟨P, hu.goto_aside ?_ hhand ?_ ?_ (fun _ _ => hhelper) ?_ ?_⟩
    · rw [hupc]; rfl
    · rw [hupc]; exact iff_of_false hlock id
    · rw [hupc]; exact hahead
    · intro x
      rw [hupc]
      exact hrefs x
    · rintro x q rfl
      exact hhelper
  -- a lost compare-and-swap, and a wake that is already recorded
  have hretry : ∀ v, Inv (s.goto a (.wake g v)) := fun v =>
    haside hP hpc rfl trivial id rfl fun _ => rfl
  have hdone : Inv (s.goto a .idle) := haside hP hpc rfl trivial id rfl fun _ => rfl
  have hrecord : ∀ {w}, s.ws g = .running ∧ w = .runningWoken ∨
      s.ws g = .sweeping ∧ w = .sweepingWoken → Inv ((s.setWs g w).goto a .idle) := by
    intro w hw
    exact haside (hP.setWs (hP.placeWs_woken hw)) hpc rfl trivial id rfl fun _ => rfl
  unfold WakeState.wakeStep
  cases st with
  | parked =>
    simp only
    split
    · rename_i hw
      refine ⟨_, hP.claim_parked hw ?_ rfl rfl id ?_ ?_ (fun _ _ => trivial) ?_ (by simp)⟩
      · rw [hpc]; rfl
      · rw [hpc]; exact id
      · rw [hpc]; rfl
      · intro x
        rw [hpc]
        simp [Pc.queueRefs]
    · exact hretry _
  | running =>
    simp only
    split
    · rename_i hw
      exact hrecord (.inl ⟨hw, rfl⟩)
    · exact hretry _
  | sweeping =>
    simp only
    split
    · rename_i hw
      exact hrecord (.inr ⟨hw, rfl⟩)
    · exact hretry _
  | queued | runningWoken | sweepingWoken => exact hdone

theorem PInv.push_ofHelper {stage stage' : Stage} (hpc : s.pc a = .push g q stage) (i : ℕ) (ha : a = .helper i) :
    (Pc.push g q stage').ofHelper := by
  have hhelper := hP.helper i
  rw [← ha, hpc] at hhelper
  cases q <;> exact hhelper

theorem PInv.push_incref (hpc : s.pc a = .push g q .incref) :
    PInv ((s.addRef g 1).goto a (.push g q .acquire)) P := by
  have hPg : P g = .held a := (hP.hand a g).mpr (by rw [hpc]; rfl)
  apply hP.keep (t := (s.addRef g 1).goto a (.push g q .acquire)) (by rw [hpc]; rfl) rfl rfl
    (update_eq_self g s.ws).symm
  · have hws := hP.ws g
    rwa [hPg, PlaceWs, hpc] at hws
  · rfl
  · rfl
  · exact hP.lock_keep (by simp [hpc, Pc.locked])
  · exact hP.lenAhead_goto (by rw [hpc]; rfl) rfl rfl rfl rfl
  · exact hP.push_ofHelper hpc
  · intro x hx
    simp [hpc, Pc.queueRefs, Ne.symm hx]
  · intro x
    show update s.refs g (s.refs g + 1) x = _
    rw [hpc]
    by_cases hx : x = g
    · subst hx
      rw [update_self]
      cases q with
      | false => simp [Pc.queueRefs]
      | true =>
        simp [Pc.queueRefs]
        omega
    · rw [update_of_ne hx]
      simp [Pc.queueRefs, Ne.symm hx]
  · intro x q' hc
    cases hc

theorem PInv.push_acquire (hpc : s.pc a = .push g q .acquire) (hfree : s.lock = none) :
    PInv ({ s with lock := some a }.goto a (.push g q .link)) P := by
  have hPg : P g = .held a := (hP.hand a g).mpr (by rw [hpc]; rfl)
  apply hP.keep (t := goto { s with lock := some a } a (.push g q .link))
    (by rw [hpc]; rfl) rfl rfl (update_eq_self g s.ws).symm
  · have hws := hP.ws g
    rwa [hPg, PlaceWs, hpc] at hws
  · rfl
  · rfl
  · exact hP.lock_take hfree trivial
  · have hlen := hP.len
    rw [lenAhead_of_unlocked hfree] at hlen
    rw [lenAhead_of_lock (a := a) rfl, goto_pc, update_self]
    exact hlen
  · exact hP.push_ofHelper hpc
  · intro x hx
    simp [hpc, Pc.queueRefs, Ne.symm hx]
  · intro x
    simp [goto, hpc, Pc.queueRefs]
  · intro x q' hc
    cases hc

theorem PInv.push_len (hpc : s.pc a = .push g q .len) :
    PInv ({ s with len := s.len + 1 }.goto a (.push g q .unlock)) P := by
  have hlock : s.lock = some a := (hP.lock a).mpr (by rw [hpc]; trivial)
  apply hP.aside (t := goto { s with len := s.len + 1 } a (.push g q .unlock))
    (by rw [hpc]; rfl) rfl rfl rfl rfl rfl
  · exact hP.lock_keep (by simp [hpc, Pc.locked])
  · have hlen := hP.len
    rw [lenAhead_of_lock hlock, hpc] at hlen
    rw [lenAhead_of_lock (a := a) (by exact hlock), goto_pc, update_self]
    simp only [goto, Pc.lenAhead] at hlen ⊢
    omega
  · exact hP.push_ofHelper hpc
  · intro x
    simp [goto, hpc, Pc.queueRefs]
  · intro x q' hc
    cases hc

theorem PInv.unlock_aside (hold : (s.pc a).hand = none) (hnew : c.hand = none)
    (hlocked : (s.pc a).locked) (hlock : ¬c.locked) (hahead : (s.pc a).lenAhead = 0)
    (hhelper : ∀ i, a = .helper i → c.ofHelper)
    (hrefs : ∀ x, c.queueRefs x = (s.pc a).queueRefs x)
    (hyield : ∀ x q, c ≠ .yieldStore x q true) : PInv ({ s with lock := none }.goto a c) P := by
  apply hP.aside (t := goto { s with lock := none } a c) hold hnew rfl rfl rfl rfl (hP.lock_drop hlocked hlock)
  · have hlen := hP.len
    rw [lenAhead_of_lock ((hP.lock a).mpr hlocked), hahead] at hlen
    rw [lenAhead_of_unlocked rfl]
    exact hlen
  · exact hhelper
  · intro x
    rw [hrefs x]
    show s.refs x = _
    omega
  · exact hyield

theorem Inv.pushStep {stage : Stage} (hpc : s.pc a = .push g q stage)
    (h : pushStep s a g q stage = some t) : Inv t := by
  cases stage with
  | incref =>
    cases h
    exact ⟨P, hP.push_incref hpc⟩
  | acquire =>
    simp only [WakeState.pushStep] at h
    split at h
    · rename_i hfree
      cases h
      exact ⟨P, hP.push_acquire hpc hfree⟩
    · cases h
  | link =>
    cases h
    exact ⟨_, hP.link hpc⟩
  | len =>
    cases h
    exact ⟨P, hP.push_len hpc⟩
  | unlock =>
    cases h
    refine ⟨P, hP.unlock_aside (by rw [hpc]; rfl) ?_ (by rw [hpc]; trivial) ?_ (by rw [hpc]; rfl) ?_ ?_ ?_⟩
    · cases q <;> rfl
    · cases q <;> exact id
    · intro i ha
      have hhelper : (Pc.push g q .unlock).ofHelper := hP.push_ofHelper hpc i ha
      cases q <;> exact hhelper
    · intro x
      rw [hpc]
      cases q <;> simp [Pc.queueRefs]
    · cases q <;> simp

theorem PInv.pull_acquire (hpc : s.pc (.hub h) = .pullAcquire) (hfree : s.lock = none) :
    PInv ({ s with lock := some (.hub h) }.goto (.hub h) .pullTake) P := by
  apply hP.aside (t := goto { s with lock := some (.hub h) } (.hub h) .pullTake)
    (by rw [hpc]; rfl) rfl rfl rfl rfl rfl (hP.lock_take hfree trivial)
  · have hlen := hP.len
    rw [lenAhead_of_unlocked hfree] at hlen
    rw [lenAhead_of_lock (a := .hub h) rfl, goto_pc, update_self]
    exact hlen
  · intro i hi
    cases hi
  · intro x
    simp [goto, hpc, Pc.queueRefs]
  · intro x q hc
    cases hc

theorem PInv.pull_len (hpc : s.pc (.hub h) = .pullLen g) :
    PInv ({ s with len := s.len - 1 }.goto (.hub h) (.pullUnlock (some g))) P := by
  have hPg : P g = .held (.hub h) := (hP.hand _ g).mpr (by rw [hpc]; rfl)
  have hlock : s.lock = some (.hub h) := (hP.lock _).mpr (by rw [hpc]; trivial)
  apply hP.keep (t := goto { s with len := s.len - 1 } (.hub h) (.pullUnlock (some g)))
    (by rw [hpc]; rfl) rfl rfl (update_eq_self g s.ws).symm
  · have hws := hP.ws g
    rwa [hPg, PlaceWs, hpc] at hws
  · rfl
  · rfl
  · exact hP.lock_keep (by simp [hpc, Pc.locked])
  · have hlen := hP.len
    rw [lenAhead_of_lock hlock, hpc] at hlen
    rw [lenAhead_of_lock (a := .hub h) (by exact hlock), goto_pc, update_self]
    simp only [goto, Pc.lenAhead] at hlen ⊢
    omega
  · intro i hi
    cases hi
  · intro x hx
    simp [hpc, Pc.queueRefs, Ne.symm hx]
  · intro x
    simp [goto, hpc, Pc.queueRefs]
  · intro x q hc
    cases hc

theorem PInv.pull_unlock (hpc : s.pc (.hub h) = .pullUnlock (some g)) :
    PInv ({ s with lock := none }.goto (.hub h) (.claim g)) P := by
  have hPg : P g = .held (.hub h) := (hP.hand _ g).mpr (by rw [hpc]; rfl)
  have hlocked : (s.pc (.hub h)).locked := by rw [hpc]; trivial
  apply hP.keep (t := goto { s with lock := none } (.hub h) (.claim g))
    (by rw [hpc]; rfl) rfl rfl (update_eq_self g s.ws).symm
  · have hws := hP.ws g
    rwa [hPg, PlaceWs, hpc] at hws
  · rfl
  · rfl
  · exact hP.lock_drop hlocked id
  · have hlen := hP.len
    rw [lenAhead_of_lock ((hP.lock _).mpr hlocked), hpc] at hlen
    rw [lenAhead_of_unlocked rfl]
    exact hlen
  · intro i hi
    cases hi
  · intro x hx
    simp [hpc, Pc.queueRefs, Ne.symm hx]
  · intro x
    simp [goto, hpc, Pc.queueRefs]
  · intro x q hc
    cases hc

theorem PInv.wsOk_of_hand (hold : (s.pc a).hand = some g) : (s.pc a).wsOk (s.ws g) := by
  have hws := hP.ws g
  rwa [(hP.hand a g).mpr hold] at hws

theorem PInv.claim_queued (hpc : s.pc a = .claim g) : s.ws g = .queued := by
  have hok := hP.wsOk_of_hand (a := a) (g := g) (by rw [hpc]; rfl)
  rwa [hpc] at hok

theorem PInv.exists_hub (hc : ¬(s.pc a).ofHelper) : ∃ h, a = .hub h := by
  cases a with
  | hub h => exact ⟨h, rfl⟩
  | helper i => exact absurd (hP.helper i) hc

theorem Inv.sweepRelease (hpc : s.pc a = .sweep g) (h : next s a = some t) : Inv t := by
  have hok := hP.wsOk_of_hand (a := a) (g := g) (by rw [hpc]; rfl)
  simp only [next, hpc] at h
  split at h
  · cases h
    refine ⟨_, hP.release_parked (by rw [hpc]; rfl) rfl id (by rw [hpc]; exact id) (by rw [hpc]; rfl)
      ?_ (fun _ _ => trivial) (by simp)⟩
    intro x
    rw [hpc]
    rfl
  · rename_i hw
    cases h
    rw [hpc] at hok
    refine ⟨P, hP.keep_goto (g := g) (by rw [hpc]; rfl) rfl (hok.resolve_left hw)
      (by rw [hpc]; exact Iff.rfl) (by rw [hpc]; rfl) (fun _ _ => trivial) ?_ ?_ (by simp)⟩
    · intro x _
      simp [hpc, Pc.queueRefs]
    · simp [hpc, Pc.queueRefs]

/-- The release after a park: back to `PARKED`, or the enqueue a wake left to the releaser. -/
theorem Inv.parkRelease (hpc : s.pc (.hub h) = .parkCas g q) (hstep : next s (.hub h) = some t) : Inv t := by
  have hok := hP.wsOk_of_hand (a := .hub h) (g := g) (by rw [hpc]; rfl)
  rw [hpc] at hok
  simp only [next, hpc] at hstep
  split at hstep
  · cases hstep
    refine ⟨_, hP.release_parked (by rw [hpc]; rfl) ?_ ?_ (by rw [hpc]; exact id) ?_ ?_ (by simp) ?_⟩
    · cases q <;> rfl
    · cases q <;> exact id
    · rw [hpc]
      cases q <;> rfl
    · intro x
      rw [hpc]
      cases q <;> simp [Pc.queueRefs]
    · cases q <;> simp
  · rename_i hw
    cases hstep
    refine ⟨P, hP.keep_goto (g := g) (by rw [hpc]; rfl) rfl (hok.resolve_left hw)
      (by rw [hpc]; exact Iff.rfl) (by rw [hpc]; rfl) (by simp) ?_ ?_ (by simp)⟩
    · intro x hx
      simp [hpc, Pc.queueRefs, Ne.symm hx]
    · simp [hpc, Pc.queueRefs]

theorem Inv.requeue (hold : (s.pc a).hand = some g) (hlock : ¬(s.pc a).locked) (hahead : (s.pc a).lenAhead = 0)
    (hhelper : ∀ i, a = .helper i → q = false)
    (hrefs : ∀ x, (s.pc a).queueRefs x = if g = x ∧ q = true then 1 else 0) :
    Inv ((s.setWs g .queued).goto a (.push g q .incref)) := by
  refine ⟨P, hP.keep_ws hold rfl rfl (iff_of_false id hlock) (by rw [hahead]; rfl) ?_ ?_ ?_ (by simp)⟩
  · intro i ha
    rw [hhelper i ha]
    trivial
  · intro x hx
    rw [hrefs x]
    simp [Pc.queueRefs, Ne.symm hx]
  · rw [hrefs g]
    rfl

theorem Inv.yieldRelease {self : Bool}
    (hpc : s.pc (.hub h) = .yieldStore g q self) (hstep : next s (.hub h) = some t) : Inv t := by
  simp only [next, hpc] at hstep
  cases hstep
  cases self with
  | true =>
    -- the fiber is on the local queue already and may not be in a hand
    have hPg := hP.yielding h g q hpc
    have hset : PInv (s.setWs g .running) P := hP.setWs (by rw [hPg]; exact .inl rfl)
    have hpc' : (s.setWs g .running).pc (.hub h) = .yieldStore g q true := hpc
    refine ⟨P, hset.goto_aside (by rw [hpc']; rfl) ?_ ?_ ?_ (by simp) ?_ ?_⟩
    · cases q <;> rfl
    · rw [hpc']
      cases q <;> exact Iff.rfl
    · rw [hpc']
      cases q <;> rfl
    · intro x
      rw [hpc']
      cases q <;> simp [Pc.queueRefs]
    · cases q <;> simp
  | false =>
    refine ⟨P, hP.keep_ws (by rw [hpc]; rfl) ?_ ?_ ?_ ?_ (by simp) ?_ ?_ ?_⟩
    · cases q <;> rfl
    · cases q <;> exact .inl rfl
    · rw [hpc]
      cases q <;> exact Iff.rfl
    · rw [hpc]
      cases q <;> rfl
    · intro x hx
      rw [hpc]
      cases q <;> simp [Pc.queueRefs, Ne.symm hx]
    · rw [hpc]
      cases q <;> simp [Pc.queueRefs]
    · cases q <;> simp

theorem Inv.yieldDecref {self : Bool}
    (hpc : s.pc (.hub h) = .yieldDecref g self) (hstep : next s (.hub h) = some t) : Inv t := by
  simp only [next, hpc] at hstep
  cases hstep
  cases self with
  | true =>
    refine ⟨P, hP.addRef_aside (by rw [hpc]; rfl) rfl (by rw [hpc]; exact Iff.rfl) (by rw [hpc]; rfl)
      ?_ (by simp)⟩
    intro x
    rw [hpc]
    by_cases hx : g = x <;> simp [Pc.queueRefs, hx]
  | false =>
    have hok := hP.wsOk_of_hand (a := .hub h) (g := g) (by rw [hpc]; rfl)
    rw [hpc] at hok
    refine ⟨P, hP.keep (t := (s.addRef g (-1)).goto (.hub h) (.readyPush g)) (g := g)
      (by rw [hpc]; rfl) rfl rfl (update_eq_self g s.ws).symm hok rfl rfl
      (hP.lock_keep (by rw [hpc]; exact Iff.rfl))
      (hP.lenAhead_goto (by rw [hpc]; rfl) rfl rfl rfl rfl) (by simp) ?_ ?_ (by simp)⟩
    · intro x hx
      simp [hpc, Pc.queueRefs, Ne.symm hx]
    · intro x
      show update s.refs g (s.refs g + -1) x = _
      rw [hpc]
      by_cases hx : x = g
      · subst hx
        rw [update_self]
        simp [Pc.queueRefs]
        omega
      · rw [update_of_ne hx]
        simp [Pc.queueRefs, Ne.symm hx]

theorem Inv.pullStep (hpc : s.pc (.hub h) = .pullAcquire ∨ s.pc (.hub h) = .pullTake)
    (hstep : next s (.hub h) = some t) : Inv t := by
  rcases hpc with hpc | hpc
  · simp only [next, hpc] at hstep
    split at hstep
    · rename_i hfree
      cases hstep
      exact ⟨P, hP.pull_acquire hpc hfree⟩
    · cases hstep
  · simp only [next, hpc] at hstep
    split at hstep
    · cases hstep
      refine ⟨P, hP.goto_aside (by rw [hpc]; rfl) rfl (by rw [hpc]; exact Iff.rfl)
        (by rw [hpc]; rfl) (by simp) ?_ (by simp)⟩
      intro x
      simp [hpc, Pc.queueRefs]
    · rename_i hrunq
      cases hstep
      exact ⟨_, hP.pullTake hpc hrunq⟩

theorem Inv.claim (hpc : s.pc (.hub h) = .claim g) (hstep : next s (.hub h) = some t) : Inv t := by
  simp only [next, hpc, hP.claim_queued hpc, if_true] at hstep
  cases hstep
  refine ⟨P, hP.keep_ws (by rw [hpc]; rfl) rfl (.inl rfl) (by rw [hpc]; exact Iff.rfl)
    (by rw [hpc]; rfl) (by simp) ?_ ?_ (by simp)⟩
  · intro x hx
    simp [hpc, Pc.queueRefs, Ne.symm hx]
  · simp [hpc, Pc.queueRefs]

theorem Inv.hubNext (hhub : ¬(s.pc (.hub h)).ofHelper) (hstep : next s (.hub h) = some t) : Inv t := by
  cases hpc : s.pc (.hub h) with
  | idle | wake | sweep | sweepStore => exact absurd (by rw [hpc]; trivial) hhub
  | push g q stage =>
    simp only [next, hpc] at hstep
    exact Inv.pushStep hP hpc hstep
  | running => simp [next, hpc] at hstep
  | pullAcquire => exact Inv.pullStep hP (.inl hpc) hstep
  | pullTake => exact Inv.pullStep hP (.inr hpc) hstep
  | pullLen g =>
    simp only [next, hpc] at hstep
    cases hstep
    exact ⟨P, hP.pull_len hpc⟩
  | pullUnlock g? =>
    simp only [next, hpc] at hstep
    cases g? with
    | none =>
      cases hstep
      refine ⟨P, hP.unlock_aside (by rw [hpc]; rfl) rfl (by rw [hpc]; trivial) id (by rw [hpc]; rfl)
        (by simp) ?_ (by simp)⟩
      intro x
      simp [hpc, Pc.queueRefs]
    | some g =>
      cases hstep
      exact ⟨P, hP.pull_unlock hpc⟩
  | claim g => exact Inv.claim hP hpc hstep
  | parkCas g q => exact Inv.parkRelease hP hpc hstep
  | parkStore g q =>
    simp only [next, hpc] at hstep
    cases hstep
    apply Inv.requeue hP (by rw [hpc]; rfl) (by rw [hpc]; exact id) (by rw [hpc]; rfl) (by simp)
    intro x
    rw [hpc]
    rfl
  | decref g =>
    simp only [next, hpc] at hstep
    cases hstep
    refine ⟨P, hP.addRef_aside (by rw [hpc]; rfl) rfl (by rw [hpc]; exact Iff.rfl) (by rw [hpc]; rfl)
      ?_ (by simp)⟩
    intro x
    rw [hpc]
    by_cases hx : g = x <;> simp [Pc.queueRefs, hx]
  | yieldStore g q self => exact Inv.yieldRelease hP hpc hstep
  | yieldDecref g self => exact Inv.yieldDecref hP hpc hstep
  | readyPush g =>
    have hok := hP.wsOk_of_hand (a := .hub h) (g := g) (by rw [hpc]; rfl)
    rw [hpc] at hok
    simp only [next, hpc] at hstep
    cases hstep
    refine ⟨_, hP.toFifo (by rw [hpc]; rfl) rfl hok id (by rw [hpc]; exact id) (by rw [hpc]; rfl) ?_ (by simp)⟩
    intro x
    rw [hpc]
    rfl

end

section

variable (hI : Inv s)
include hI

theorem Inv.next (hstep : next s a = some t) : Inv t := by
  rcases hI with ⟨P, hP⟩
  cases hpc : s.pc a with
  | idle | running => simp [WakeState.next, hpc] at hstep
  | wake g st =>
    simp only [WakeState.next, hpc] at hstep
    cases hstep
    exact Inv.wakeStep hP hpc
  | push g q stage =>
    simp only [WakeState.next, hpc] at hstep
    exact Inv.pushStep hP hpc hstep
  | sweep g => exact Inv.sweepRelease hP hpc hstep
  | sweepStore g =>
    simp only [WakeState.next, hpc] at hstep
    cases hstep
    apply Inv.requeue hP
    · rw [hpc]; rfl
    · rw [hpc]; exact id
    · rw [hpc]; rfl
    · exact fun _ _ => rfl
    · intro x
      simp [hpc, Pc.queueRefs]
  | _ =>
    -- what is left only a hub does
    have hnot : ¬(s.pc a).ofHelper := by
      rw [hpc]
      exact id
    obtain ⟨h, rfl⟩ := hP.exists_hub hnot
    exact Inv.hubNext hP hnot hstep

theorem Inv.readyPop (hstep : step s (.readyPop h) = some t) :
    Inv t := by
  rcases hI with ⟨P, hP⟩
  simp only [step] at hstep
  split at hstep
  · rename_i g rest hpc hfifo
    cases hstep
    exact ⟨_, hP.readyPop hpc hfifo⟩
  · cases hstep

theorem Inv.leave (hstep : step s (.park h) = some t ∨ step s (.rawYield h) = some t ∨
      step s (.yieldCurrent h) = some t) : Inv t := by
  rcases hI with ⟨P, hP⟩
  simp only [step] at hstep
  cases hpc : s.pc (.hub h) with
  | running g q =>
    have hok := hP.wsOk_of_hand (a := .hub h) (g := g) (by rw [hpc]; rfl)
    rw [hpc] at hok
    have hkeep : ∀ c : Pc, c.hand = some g → c.wsOk (s.ws g) → ¬c.locked → c.lenAhead = 0 →
        (∀ x, c.queueRefs x = (s.pc (.hub h)).queueRefs x) →
        (∀ x q, c ≠ .yieldStore x q true) → Inv (s.goto (.hub h) c) := by
      intro c hhand hwsOk hlock hahead hrefs hyield
      refine ⟨P, hP.keep_goto (by rw [hpc]; rfl) hhand hwsOk ?_ (by rw [hpc]; exact hahead) (by simp)
        ?_ (hrefs g) hyield⟩
      · rw [hpc]
        exact iff_of_false hlock id
      · intro x hx
        rw [hrefs x, hpc]
        simp [Pc.queueRefs, Ne.symm hx]
    rw [hpc] at hstep
    rcases hstep with h | h | h <;> cases h
    · apply hkeep (.parkCas g q) rfl hok id rfl _ (by simp)
      intro x
      rw [hpc]
      rfl
    · apply hkeep (.yieldStore g q false) rfl hok id rfl _ (by simp)
      intro x
      rw [hpc]
      rfl
    · refine ⟨_, hP.toFifo (by rw [hpc]; rfl) rfl hok id (by rw [hpc]; exact id) (by rw [hpc]; rfl) ?_ ?_⟩
      · intro x
        rw [hpc]
        rfl
      · intro x q' hc
        cases hc
        rfl
  | _ => simp [hpc] at hstep

theorem Inv.begin (hpc : s.pc a = .idle) (hnew : c.hand = none) (hlock : ¬c.locked)
    (hahead : c.lenAhead = 0) (hhelper : ∀ i, a = .helper i → c.ofHelper)
    (hrefs : ∀ x, c.queueRefs x = 0) (hyield : ∀ x q, c ≠ .yieldStore x q true) :
    Inv (s.goto a c) := by
  rcases hI with ⟨P, hP⟩
  refine ⟨P, hP.goto_aside (by rw [hpc]; rfl) hnew ?_ (by rw [hpc]; exact hahead) hhelper ?_ hyield⟩
  · rw [hpc]
    exact iff_of_false hlock id
  · intro x
    rw [hpc]
    exact hrefs x

theorem Inv.beginClaim (hpc : s.pc a = .idle) (hw : s.ws g = .parked)
    (hnew : c.hand = some g) (hok : c.wsOk w) (hlock : ¬c.locked) (hahead : c.lenAhead = 0)
    (hhelper : ∀ i, a = .helper i → c.ofHelper) (hrefs : ∀ x, c.queueRefs x = 0)
    (hyield : ∀ x q, c ≠ .yieldStore x q true) : Inv ((s.setWs g w).goto a c) := by
  rcases hI with ⟨P, hP⟩
  refine ⟨_, hP.claim_parked hw (by rw [hpc]; rfl) hnew hok hlock (by rw [hpc]; exact id)
    (by rw [hpc]; exact hahead) hhelper ?_ hyield⟩
  intro x
  rw [hpc]
  exact ⟨hrefs x, rfl⟩

theorem Inv.step {act : Action n} (hstep : step s act = some t) : Inv t := by
  cases act with
  | next a => exact hI.next hstep
  | wake i g =>
    simp only [WakeState.step] at hstep
    split at hstep
    · rename_i hpc
      cases hstep
      exact hI.begin hpc rfl id rfl (fun _ _ => trivial) (fun _ => rfl) (by simp)
    · cases hstep
  | sweepClaim i g =>
    simp only [WakeState.step] at hstep
    split at hstep
    · rename_i hpc
      cases hstep
      exact hI.beginClaim hpc.1 hpc.2 rfl (.inl rfl) id rfl (fun _ _ => trivial) (fun _ => rfl) (by simp)
    · cases hstep
  | startPull h =>
    simp only [WakeState.step] at hstep
    split at hstep
    · rename_i hpc
      cases hstep
      exact hI.begin hpc.1 rfl id rfl (by simp) (fun _ => rfl) (by simp)
    · cases hstep
  | timerClaim h g =>
    simp only [WakeState.step] at hstep
    split at hstep
    · rename_i hpc
      cases hstep
      exact hI.beginClaim hpc.1 hpc.2 rfl (.inl rfl) id rfl (by simp) (fun _ => rfl) (by simp)
    · cases hstep
  | readyPop h => exact hI.readyPop hstep
  | park h => exact hI.leave (.inl hstep)
  | rawYield h => exact hI.leave (.inr (.inl hstep))
  | yieldCurrent h => exact hI.leave (.inr (.inr hstep))

end

theorem Inv.init (hI : Init s) : Inv s := by
  have hplace : ∀ g, ∃ p : Place n, PlaceWs s.pc p (s.ws g) ∧ p ≠ .listed ∧ (∀ a, p ≠ .held a) ∧
      ∀ h, (s.fifo h).count g = if p = .fifo h then 1 else 0 := by
    intro g
    rcases hI.fifo g with ⟨h, hone, hws, hother⟩ | ⟨hws, hnone⟩
    · refine ⟨.fifo h, .inl hws, by simp, by simp, ?_⟩
      intro h'
      by_cases hh : h' = h
      · subst hh
        simpa using hone
      · simpa [Ne.symm hh] using hother h' hh
    · exact ⟨.parked, hws, by simp, by simp, by simpa using hnone⟩
  choose P hws hlisted hheld hfifo using hplace
  refine ⟨P, ?_, hws, ?_, fun h g => hfifo g h, ?_, ?_, ?_, ?_, ?_⟩
  · intro a g
    simp [hI.pc a, Pc.hand, hheld g a]
  · intro g
    simp [hI.runq, hlisted g]
  · intro a
    simp [hI.lock, hI.pc a, Pc.locked]
  · simp [hI.len, hI.runq, lenAhead_of_unlocked hI.lock]
  · intro g
    have hhelper : helperRefs s.pc g (P g) = 0 := helperRefs_eq_zero _ _ fun i => hheld g _
    simp [hI.refs g, hI.runq, heldRefs, hhelper, hI.pc, Pc.queueRefs]
  · intro h g q hc
    rw [hI.pc] at hc
    cases hc
  · intro i
    rw [hI.pc]
    trivial

theorem wakeState_inv (hr : (wakeState n).Reachable s) : Inv s :=
  hr.invariant (fun _ => Inv.init) fun _ _ _ hI _ h => hI.step h

end Runloom.WakeState
