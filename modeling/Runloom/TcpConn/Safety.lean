import Runloom.TcpConn.Model

/-!
# The descriptor is not used after the close

The critical section orders every receive against the close: up to its link a receive holds the
section, and it has seen the connection open in that same span.  The sends have no such span, so what
is proved of them is under the condition that they find the connection open.
-/

namespace Runloom.TcpConn

open Transition

variable {T : Type*} {s s' : State T} {fd pools : Nat}

def Pc.held : Pc → Bool
  | .test _ _ | .unlock _ _ _ => true
  | .call io | .wait io | .link io => io.op.guarded
  | _ => false

def Pc.closes : Pc → Bool
  | .cancel _ _ | .unregister _ | .closesock _ => true
  | _ => false

def Pc.Valid (fd pools : Nat) (closed : Bool) : Pc → Prop
  | .test op _ | .unlock op _ _ | .lock op _ => op.guarded = true
  | .load op _ => op.guarded = false
  | .call io =>
    (io.fd = some fd ∨ io.fd = none ∧ io.op.guarded = false) ∧ (io.op.guarded = true → closed = false)
  | .wait io | .link io => io.fd = some fd ∧ (io.op.guarded = true → closed = false)
  | .parked io pool => io.fd = some fd ∧ pool < pools
  | .woken io _ => io.fd = some fd
  | .cancel n _ | .unregister n | .closesock n => n = fd ∧ closed = true
  | _ => True

structure Inv (fd pools : Nat) (s : State T) : Prop where
  number : s.fd = if s.closed then none else some fd
  valid : ∀ t, (s.pc t).Valid fd pools s.closed
  held : ∀ t, (s.pc t).held = true ↔ s.holder = some t
  one : ∀ t u, (s.pc t).closes = true → (s.pc u).closes = true → t = u
  freed : s.freed ≠ none → s.closed = true ∧ ∀ t, (s.pc t).closes = false
  parked : s.closed = true → ∀ t io pool, s.pc t = .parked io pool → ∃ u n k, s.pc u = .cancel n k ∧ k ≤ pool
  stale : s.stale = 0

theorem Inv.init (h : Init fd s) : Inv fd pools s where
  number := by
    rw [h.fd, h.closed]
    rfl
  valid t := by
    rw [h.pc]
    trivial
  held t := by
    rw [h.pc, h.holder]
    exact ⟨nofun, nofun⟩
  one t u ht := by
    rw [h.pc] at ht
    cases ht
  freed hf := absurd h.freed hf
  parked hc := by
    rw [h.closed] at hc
    cases hc
  stale := h.stale

theorem Inv.fd_eq (hI : Inv fd pools s) (hc : s.closed = false) : s.fd = some fd := by
  rw [hI.number, hc]
  rfl

theorem Inv.open_iff (hI : Inv fd pools s) : (s.closed || s.fd.isNone) = s.closed := by
  rw [hI.number]
  cases s.closed <;> rfl

section Steps

variable [DecidableEq T]

/-! ## One fiber moves -/

variable {t : T} {pc : Pc}

section

variable (hI : Inv fd pools s)
include hI

theorem Inv.move {h : Option T} (hvalid : pc.Valid fd pools s.closed) (hold : (s.pc t).closes = false)
    (hnew : pc.closes = false) (hpark : ∀ io pool, pc = .parked io pool → s.closed = false)
    (hself : pc.held = true ↔ h = some t)
    (hother : ∀ u, u ≠ t → (s.holder = some u ↔ h = some u)) :
    Inv fd pools ({ s with holder := h }.setPc t pc) where
  number := hI.number
  valid u := by
    simp only [State.setPc]
    by_cases hu : u = t
    · rw [hu, update_self]
      exact hvalid
    · rw [update_of_ne hu]
      exact hI.valid u
  held u := by
    simp only [State.setPc]
    by_cases hu : u = t
    · rw [hu, update_self]
      exact hself
    · rw [update_of_ne hu, hI.held u]
      exact hother u hu
  one u v hu hv := by
    have key : ∀ w, (update s.pc t pc w).closes = true → (s.pc w).closes = true := by
      intro w hw
      by_cases hwt : w = t
      · rw [hwt, update_self, hnew] at hw
        cases hw
      · rw [update_of_ne hwt] at hw
        exact hw
    exact hI.one u v (key u hu) (key v hv)
  freed hf := by
    obtain ⟨hc, hn⟩ := hI.freed hf
    refine ⟨hc, fun u => ?_⟩
    simp only [State.setPc]
    by_cases hu : u = t
    · rw [hu, update_self]
      exact hnew
    · rw [update_of_ne hu]
      exact hn u
  parked hc u io pool hu := by
    simp only [State.setPc] at hu ⊢
    have hut : u ≠ t := by
      rintro rfl
      rw [update_self] at hu
      have hopen := hpark io pool hu
      rw [show s.closed = true from hc] at hopen
      cases hopen
    rw [update_of_ne hut] at hu
    obtain ⟨v, n, k, hv, hk⟩ := hI.parked hc u io pool hu
    have hvt : v ≠ t := by
      rintro rfl
      rw [hv] at hold
      cases hold
    refine ⟨v, n, k, ?_, hk⟩
    rw [update_of_ne hvt]
    exact hv
  stale := hI.stale

theorem Inv.stay (hvalid : pc.Valid fd pools s.closed) (hold : (s.pc t).closes = false) (hnew : pc.closes = false)
    (hpark : ∀ io pool, pc = .parked io pool → s.closed = false)
    (hheld : pc.held = (s.pc t).held) : Inv fd pools (s.setPc t pc) := by
  refine hI.move (h := s.holder) hvalid hold hnew hpark ?_ fun _ _ => Iff.rfl
  rw [hheld]
  exact hI.held t

theorem Inv.acquire (hfree : s.holder = none)
    (hvalid : pc.Valid fd pools s.closed) (hold : (s.pc t).closes = false)
    (hnew : pc.closes = false) (hpark : ∀ io pool, pc ≠ .parked io pool)
    (hheld : pc.held = true) : Inv fd pools ({ s with holder := some t }.setPc t pc) := by
  refine hI.move hvalid hold hnew (fun io pool h => absurd h (hpark io pool)) ?_ fun u hu => ?_
  · exact ⟨fun _ => rfl, fun _ => hheld⟩
  · rw [hfree]
    exact ⟨nofun, fun h => absurd (Option.some.inj h).symm hu⟩

theorem Inv.release (ht : (s.pc t).held = true)
    (hvalid : pc.Valid fd pools s.closed) (hold : (s.pc t).closes = false)
    (hnew : pc.closes = false) (hpark : ∀ io pool, pc = .parked io pool → s.closed = false)
    (hheld : pc.held = false) : Inv fd pools ({ s with holder := none }.setPc t pc) := by
  refine hI.move hvalid hold hnew hpark ?_ fun u hu => ?_
  · rw [hheld]
    exact ⟨nofun, nofun⟩
  · rw [(hI.held t).mp ht]
    exact ⟨fun h => absurd (Option.some.inj h).symm hu, nofun⟩

omit [DecidableEq T] in
theorem Inv.touch {n : Option Nat} (hopen : n ≠ none → s.closed = false) : s.touch n = s := by
  unfold State.touch
  split
  next h =>
    have hc := (hI.freed (h.2 ▸ h.1)).1
    rw [hopen h.1] at hc
    cases hc
  next => rfl

/-! ## The loops -/

theorem Inv.finish {io : Io} {again : Bool}
    (hold : (s.pc t).closes = false) (hheld : (s.pc t).held = io.op.guarded)
    (hfd : again = true → io.fd = some fd) : Inv fd pools (s.finish t io again) := by
  unfold State.finish
  split
  next hg =>
    refine hI.stay hg hold rfl nofun ?_
    rw [hheld, hg]
    rfl
  next hg =>
    have hg' : io.op.guarded = false := Bool.eq_false_iff.mpr hg
    cases again with
    | true =>
      refine hI.stay ⟨.inl (hfd rfl), fun h => absurd h hg⟩ hold rfl nofun ?_
      exact hheld.symm
    | false =>
      refine hI.stay trivial hold rfl nofun ?_
      rw [hheld, hg']
      rfl

theorem Inv.check {op : Op} {len : Nat} (ht : s.pc t = .entry op len) : Inv fd pools (s.check t op len) := by
  have hold : (s.pc t).closes = false := by rw [ht]; rfl
  have hheld : (s.pc t).held = false := by rw [ht]; rfl
  unfold State.check
  split
  · exact hI.stay trivial hold rfl nofun hheld.symm
  · split
    next hg =>
      split
      · exact hI.stay trivial hold rfl nofun hheld.symm
      · exact hI.stay hg hold rfl nofun hheld.symm
    next hg => exact hI.stay (Bool.eq_false_iff.mpr hg) hold rfl nofun hheld.symm

theorem Inv.load {op : Op} {len : Nat} (ht : s.pc t = .load op len) : Inv fd pools (s.load t op len) := by
  have hold : (s.pc t).closes = false := by rw [ht]; rfl
  have hheld : (s.pc t).held = false := by rw [ht]; rfl
  have hg : op.guarded = false := by
    have := hI.valid t
    rw [ht] at this
    exact this
  unfold State.load
  split
  · exact hI.stay trivial hold rfl nofun hheld.symm
  · refine hI.stay ⟨?_, fun h => ?_⟩ hold rfl nofun ?_
    · show s.fd = some fd ∨ s.fd = none ∧ op.guarded = false
      rw [hI.number]
      cases s.closed with
      | false => exact .inl rfl
      | true => exact .inr ⟨rfl, hg⟩
    · rw [hg] at h
      cases h
    · rw [hheld]
      exact hg

theorem Inv.test {op : Op} {len : Nat} (ht : s.pc t = .test op len) : Inv fd pools (s.test t op len) := by
  have hold : (s.pc t).closes = false := by rw [ht]; rfl
  have hheld : (s.pc t).held = true := by rw [ht]; rfl
  have hg : op.guarded = true := by
    have := hI.valid t
    rw [ht] at this
    exact this
  unfold State.test
  rw [hI.open_iff]
  split
  next => exact hI.stay hg hold rfl nofun hheld.symm
  next hc =>
    have hc' : s.closed = false := Bool.eq_false_iff.mpr hc
    refine hI.stay ⟨.inl (hI.fd_eq hc'), fun _ => hc'⟩ hold rfl nofun ?_
    rw [hheld]
    exact hg

theorem Inv.sys {io : Io} (ht : s.pc t = .call io)
    {outcome : Outcome} (hfd : outcome ≠ .error → io.fd = some fd) :
    Inv fd pools (s.sys t io outcome) := by
  have hold : (s.pc t).closes = false := by rw [ht]; rfl
  have hheld : (s.pc t).held = io.op.guarded := by rw [ht]; rfl
  have hv : (Pc.call io).Valid fd pools s.closed := ht ▸ hI.valid t
  cases outcome with
  | progress n =>
    unfold State.sys
    simp only
    split
    · exact hI.stay hv hold rfl nofun hheld.symm
    · exact hI.finish hold hheld nofun
  | wouldBlock => exact hI.stay ⟨hfd nofun, hv.2⟩ hold rfl nofun hheld.symm
  | error => exact hI.finish hold hheld nofun

end

/-! ## The close -/

theorem Inv.claim (hI : Inv fd pools s) (ht : s.pc t = .closing) (hfree : s.holder = none) :
    Inv fd pools (s.claim t) := by
  have hold : (s.pc t).closes = false := by rw [ht]; rfl
  have hheld : (s.pc t).held = false := by rw [ht]; rfl
  have hidle : Inv fd pools (s.setPc t .idle) := hI.stay trivial hold rfl nofun hheld.symm
  unfold State.claim
  split
  next => exact hidle
  next n hn =>
    split
    next => exact hidle
    next hc =>
      have hc' : s.closed = false := Bool.eq_false_iff.mpr hc
      have hnfd : n = fd := by
        rw [hI.fd_eq hc'] at hn
        exact (Option.some.inj hn).symm
      -- With the section free, no receive is past its test.
      have hout : ∀ u, (s.pc u).held = false := by
        intro u
        cases hu : (s.pc u).held with
        | false => rfl
        | true =>
          rw [hI.held u, hfree] at hu
          cases hu
      have hnone : ∀ u, (s.pc u).closes = false := by
        intro u
        have hv := hI.valid u
        rw [hc'] at hv
        cases hu : s.pc u with
        | cancel n k | unregister n | closesock n =>
          rw [hu] at hv
          exact absurd hv.2 nofun
        | _ => rfl
      refine ⟨rfl, fun u => ?_, fun u => ?_, fun u v hu hv => ?_, fun hf => ?_, fun _ u io pool hu => ?_,
        hI.stale⟩
      · simp only [State.setPc]
        by_cases hut : u = t
        · rw [hut, update_self]
          exact ⟨hnfd, rfl⟩
        · rw [update_of_ne hut]
          have hv := hI.valid u
          have ho := hout u
          cases hu : s.pc u with
          | call io | wait io | link io =>
            rw [hu] at hv ho
            exact ⟨hv.1, fun h => absurd h (Bool.eq_false_iff.mp ho)⟩
          | cancel n k | unregister n | closesock n =>
            have := hnone u
            rw [hu] at this
            cases this
          | _ =>
            rw [hu] at hv
            exact hv
      · simp only [State.setPc, hfree]
        refine ⟨fun h => ?_, nofun⟩
        by_cases hut : u = t
        · rw [hut, update_self] at h
          cases h
        · rw [update_of_ne hut, hout u] at h
          cases h
      · have key : ∀ w, (update s.pc t (.cancel n 0) w).closes = true → w = t := by
          intro w hw
          by_contra hwt
          rw [update_of_ne hwt, hnone w] at hw
          cases hw
        rw [key u hu, key v hv]
      · have := (hI.freed hf).1
        rw [hc'] at this
        cases this
      · exact ⟨t, n, 0, update_self .., Nat.zero_le _⟩

theorem Inv.close (hI : Inv fd pools s) {f : T → Pc} {r : Option Nat}
    (ht : (s.pc t).closes = true) (hvalid : pc.Valid fd pools s.closed) (hheld : pc.held = false)
    (hf : ∀ u, f u = s.pc u ∨ ∃ io pool, s.pc u = .parked io pool ∧ f u = .woken io false)
    (hpark : ∀ u io pool, f u = .parked io pool → ∃ n k, pc = .cancel n k ∧ k ≤ pool)
    (hnot : ∀ io pool, pc ≠ .parked io pool) (hfreed : r ≠ none → pc.closes = false) :
    Inv fd pools ({ s with pc := f, freed := r }.setPc t pc) := by
  have hc : s.closed = true := by
    have hv := hI.valid t
    cases hpc : s.pc t with
    | cancel n k | unregister n | closesock n =>
      rw [hpc] at hv
      exact hv.2
    | _ =>
      rw [hpc] at ht
      cases ht
  have hclose : ∀ u, (f u).closes = (s.pc u).closes := by
    intro u
    rcases hf u with h | ⟨io, pool, hu, h⟩
    · rw [h]
    · rw [h, hu]
      rfl
  have hothers : ∀ u, u ≠ t → (s.pc u).closes = false := by
    intro u hu
    cases h : (s.pc u).closes with
    | false => rfl
    | true => exact absurd (hI.one u t h ht) hu
  refine ⟨hI.number, fun u => ?_, fun u => ?_, fun u v hu hv => ?_, fun hf' => ⟨hc, fun u => ?_⟩,
    fun _ u io pool hu => ?_, hI.stale⟩
  · simp only [State.setPc]
    by_cases hut : u = t
    · rw [hut, update_self]
      exact hvalid
    · rw [update_of_ne hut]
      have hv := hI.valid u
      rcases hf u with h | ⟨io, pool, hu, h⟩
      · rw [h]
        exact hv
      · rw [hu] at hv
        rw [h]
        exact hv.1
  · simp only [State.setPc]
    by_cases hut : u = t
    · have hh := hI.held t
      have hnot : (s.pc t).held = false := by
        cases hpc : s.pc t with
        | cancel n k | unregister n | closesock n => rfl
        | _ =>
          rw [hpc] at ht
          cases ht
      rw [hut, update_self, hheld, ← hh, hnot]
    · rw [update_of_ne hut, ← hI.held u]
      rcases hf u with h | ⟨io, pool, hu, h⟩
      · rw [h]
      · rw [h, hu]
        rfl
  · have key : ∀ w, (update f t pc w).closes = true → w = t := by
      intro w hw
      by_contra hwt
      rw [update_of_ne hwt, hclose, hothers w hwt] at hw
      cases hw
    rw [key u hu, key v hv]
  · simp only [State.setPc]
    by_cases hut : u = t
    · rw [hut, update_self]
      exact hfreed hf'
    · rw [update_of_ne hut, hclose]
      exact hothers u hut
  · simp only [State.setPc] at hu ⊢
    by_cases hut : u = t
    · rw [hut, update_self] at hu
      exact absurd hu (hnot io pool)
    · rw [update_of_ne hut] at hu
      obtain ⟨n, k, hpc, hk⟩ := hpark u io pool hu
      refine ⟨t, n, k, ?_, hk⟩
      rw [update_self]
      exact hpc

theorem cancelled_cases (n k : Nat) (pc : Pc) :
    pc.cancelled n k = pc ∨ ∃ io, pc = .parked io k ∧ pc.cancelled n k = .woken io false := by
  cases pc with
  | parked io pool =>
    unfold Pc.cancelled
    simp only
    split
    next h => exact .inr ⟨io, h.2 ▸ rfl, rfl⟩
    next => exact .inl rfl
  | _ => exact .inl rfl

section

variable (hI : Inv fd pools s)
include hI

omit [DecidableEq T] in
theorem Inv.parked_from {u : T} {n k : Nat} (ht : s.pc t = .cancel n k)
    {io : Io} {pool : Nat} (hu : s.pc u = .parked io pool) : k ≤ pool := by
  have hv : (Pc.cancel n k).Valid fd pools s.closed := ht ▸ hI.valid t
  obtain ⟨v, n', k', hv', hk⟩ := hI.parked hv.2 u io pool hu
  have hvt : v = t := hI.one v t (by rw [hv']; rfl) (by rw [ht]; rfl)
  rw [hvt, ht] at hv'
  cases hv'
  exact hk

theorem Inv.cancel {n k : Nat} (ht : s.pc t = .cancel n k) :
    Inv fd pools ((s.cancelPool n k).setPc t (.cancel n (k + 1))) := by
  have hv : (Pc.cancel n k).Valid fd pools s.closed := ht ▸ hI.valid t
  refine hI.close (r := s.freed) (by rw [ht]; rfl) hv rfl (fun u => ?_) (fun u io pool hu => ?_)
    nofun fun hf => ?_
  · rcases cancelled_cases n k (s.pc u) with h | ⟨io, h, h'⟩
    · exact .inl h
    · exact .inr ⟨io, k, h, h'⟩
  · rcases cancelled_cases n k (s.pc u) with h | ⟨io', h, h'⟩
    · -- The pool of the parker is another one, since its descriptor is the one that is closed.
      have hpc : s.pc u = .parked io pool := h.symm.trans hu
      have hle := hI.parked_from ht hpc
      have hio : io.fd = some n := by
        have hvu : (Pc.parked io pool).Valid fd pools s.closed := hpc ▸ hI.valid u
        rw [hvu.1, hv.1]
      refine ⟨n, k + 1, rfl, Nat.lt_of_le_of_ne hle ?_⟩
      rintro rfl
      rw [hpc] at hu
      simp only [Pc.cancelled, hio, and_self, if_true] at hu
      cases hu
    · rw [h'] at hu
      cases hu
  · have := (hI.freed hf).2 t
    rw [ht] at this
    cases this

section

omit [DecidableEq T]

theorem Inv.not_freed (ht : (s.pc t).closes = true) : s.freed = none := by
  by_contra hf
  have := (hI.freed hf).2 t
  rw [ht] at this
  cases this

theorem Inv.not_parked (hc : s.closed = true)
    (hdone : ∀ u n k, s.pc u = .cancel n k → pools ≤ k) {io : Io} {pool : Nat} :
    s.pc t ≠ .parked io pool := by
  intro ht
  have hv : (Pc.parked io pool).Valid fd pools s.closed := ht ▸ hI.valid t
  obtain ⟨u, n, k, hu, hk⟩ := hI.parked hc t io pool ht
  have := hdone u n k hu
  have := hv.2
  omega

end

theorem Inv.unregister {n k : Nat} (ht : s.pc t = .cancel n k)
    (hk : pools ≤ k) : Inv fd pools (s.setPc t (.unregister n)) := by
  have hv : (Pc.cancel n k).Valid fd pools s.closed := ht ▸ hI.valid t
  have hcl : (s.pc t).closes = true := by rw [ht]; rfl
  refine hI.close (f := s.pc) (r := s.freed) hcl hv rfl (fun u => .inl rfl)
    (fun u io pool hu => ?_) nofun fun hf => absurd (hI.not_freed hcl) hf
  refine absurd hu (hI.not_parked hv.2 fun v n' k' hv' => ?_)
  have hvt : v = t := hI.one v t (by rw [hv']; rfl) hcl
  rw [hvt, ht] at hv'
  cases hv'
  exact hk

theorem Inv.closed {r : Option Nat} (ht : (s.pc t).closes = true) (hnc : ∀ n k, s.pc t ≠ .cancel n k)
    (hvalid : pc.Valid fd pools s.closed) (hheld : pc.held = false)
    (hnot : ∀ io pool, pc ≠ .parked io pool) (hfreed : r ≠ none → pc.closes = false)
    (hc : s.closed = true) : Inv fd pools ({ s with freed := r }.setPc t pc) := by
  refine hI.close (f := s.pc) ht hvalid hheld (fun u => .inl rfl) (fun u io pool hu => ?_) hnot hfreed
  refine absurd hu (hI.not_parked hc fun v n k hv => ?_)
  have hvt : v = t := hI.one v t (by rw [hv]; rfl) ht
  exact absurd (hvt ▸ hv) (hnc n k)

end

/-! ## Every step -/

def Pc.issues : Event → Pc → Option Io
  | .sys _, .call io | .wait _, .wait io | .link _, .link io => some io
  | _, _ => none

/-- A send makes its system call or its wait, or links its parker, while the connection is open. -/
def Checked (s : State T) (a : Action T) : Prop :=
  ∀ io ∈ (s.pc a.fiber).issues a.event, io.op.guarded = false → io.fd ≠ none → s.closed = false

instance (s : State T) (a : Action T) : Decidable (Checked s a) :=
  inferInstanceAs (Decidable (∀ io ∈ _, _))

theorem Inv.step (hI : Inv fd pools s) {a : Action T} (hC : Checked s a)
    (h : (conn T fd pools).step s a = some s') : Inv fd pools s' := by
  obtain ⟨t, e⟩ := a
  have hstep : s.step pools t e (s.pc t) = some s' := h
  unfold Checked at hC
  simp only at hC
  have hv := hI.valid t
  generalize hpc : s.pc t = pc at hstep hC hv
  have hopen : ∀ io : Io, (io.op.guarded = false → io.fd ≠ none → s.closed = false) →
      (io.op.guarded = true → s.closed = false) → io.fd ≠ none → s.closed = false := by
    intro io h₁ h₂ hfd
    cases hg : io.op.guarded with
    | false => exact h₁ hg hfd
    | true => exact h₂ hg
  cases e with
  | call op len | close =>
    cases pc <;> cases hstep
    exact hI.stay trivial (by rw [hpc]; rfl) rfl nofun (by rw [hpc]; rfl)
  | check =>
    cases pc <;> cases hstep
    exact hI.check hpc
  | load =>
    cases pc <;> cases hstep
    exact hI.load hpc
  | lock =>
    cases pc <;> simp only [State.step, reduceCtorEq] at hstep
    split at hstep <;> cases hstep
    next hfree => exact hI.acquire hfree hv (by rw [hpc]; rfl) rfl nofun rfl
  | test =>
    cases pc <;> cases hstep
    exact hI.test hpc
  | sys outcome =>
    cases pc <;> simp only [State.step, reduceCtorEq] at hstep
    next io =>
      split at hstep <;> cases hstep
      next hne =>
        rw [hI.touch (hopen io (hC io rfl) hv.2)]
        refine hI.sys hpc fun hout => ?_
        rcases hv.1 with hfd | ⟨hfd, -⟩
        · exact hfd
        · exact absurd ⟨hfd, hout⟩ hne
  | wait returned =>
    cases pc with
    | wait io =>
      have htouch : s.touch io.fd = s := by
        refine hI.touch (hopen io (hC io ?_) hv.2)
        cases returned <;> rfl
      have hheld : (s.pc t).held = io.op.guarded := by rw [hpc]; rfl
      cases returned with
      | none =>
        cases hstep
        rw [htouch]
        exact hI.stay hv (by rw [hpc]; rfl) rfl nofun hheld.symm
      | some ok =>
        cases hstep
        rw [htouch]
        exact hI.finish (by rw [hpc]; rfl) hheld fun _ => hv.1
    | _ => cases returned <;> cases hstep
  | link pool =>
    cases pc <;> simp only [State.step, reduceCtorEq] at hstep
    next io =>
      split at hstep <;> cases hstep
      next hlt =>
        have hc : s.closed = false := by
          refine hopen io (hC io rfl) hv.2 ?_
          rw [hv.1]
          nofun
        have hcl : (s.pc t).closes = false := by rw [hpc]; rfl
        cases hg : io.op.guarded with
        | true => exact hI.release (by rw [hpc]; exact hg) ⟨hv.1, hlt⟩ hcl rfl (fun _ _ _ => hc) rfl
        | false =>
          refine hI.stay ⟨hv.1, hlt⟩ hcl rfl (fun _ _ _ => hc) ?_
          rw [hpc]
          exact hg.symm
  | wake ok =>
    cases pc <;> cases hstep
    exact hI.stay hv.1 (by rw [hpc]; rfl) rfl nofun (by rw [hpc]; rfl)
  | resume =>
    cases pc <;> simp only [State.step, reduceCtorEq] at hstep
    next io ok =>
      have hcl : (s.pc t).closes = false := by rw [hpc]; rfl
      split at hstep
      next hg =>
        split at hstep <;> cases hstep
        next hfree =>
          unfold State.finish
          rw [if_pos hg]
          exact hI.acquire hfree hg hcl rfl nofun rfl
      next hg =>
        cases hstep
        refine hI.finish hcl ?_ fun _ => hv
        rw [hpc]
        exact (Bool.eq_false_iff.mpr hg).symm
  | unlock =>
    cases pc <;> cases hstep
    next op len again =>
      have hcl : (s.pc t).closes = false := by rw [hpc]; rfl
      have hheld : (s.pc t).held = true := by rw [hpc]; rfl
      cases again with
      | true => exact hI.release hheld hv hcl rfl nofun rfl
      | false => exact hI.release hheld trivial hcl rfl nofun rfl
  | claim =>
    cases pc <;> simp only [State.step, reduceCtorEq] at hstep
    split at hstep <;> cases hstep
    next hfree => exact hI.claim hpc hfree
  | cancel =>
    cases pc <;> simp only [State.step, reduceCtorEq] at hstep
    split at hstep <;> cases hstep
    next => exact hI.cancel hpc
    next hk => exact hI.unregister hpc (Nat.le_of_not_lt hk)
  | unregister =>
    cases pc <;> cases hstep
    have hcl : (s.pc t).closes = true := by rw [hpc]; rfl
    exact hI.closed (r := s.freed) hcl (by rw [hpc]; nofun) hv rfl nofun
      (fun hf => absurd (hI.not_freed hcl) hf) hv.2
  | closesock =>
    cases pc <;> cases hstep
    exact hI.closed (by rw [hpc]; rfl) (by rw [hpc]; nofun) trivial rfl nofun (fun _ => rfl) hv.2

theorem inv_of_reachable (h : (conn T fd pools).ReachableWith Checked s) : Inv fd pools s :=
  h.invariant (fun _ => Inv.init) fun _ _ _ hI hC hs => hI.step hC hs

/-- Nothing is done on a closed descriptor, and nobody stays parked on it. -/
structure Released (s : State T) : Prop where
  stale : s.stale = 0
  parked : s.freed ≠ none → ∀ t io pool, s.pc t ≠ .parked io pool

end Steps

/-- As long as the sends find the connection open, no call uses the closed descriptor, and the close leaves nobody
parked. -/
theorem closed_descriptor_not_used (T : Type*) [DecidableEq T] (fd pools : Nat) (s : State T)
    (h : (conn T fd pools).ReachableWith Checked s) : Released s := by
  have hI := inv_of_reachable h
  refine ⟨hI.stale, fun hf t io pool => ?_⟩
  obtain ⟨hc, hnone⟩ := hI.freed hf
  refine hI.not_parked hc fun u n k hu => ?_
  have := hnone u
  rw [hu] at this
  cases this

def State.start (fd : Nat) : State Bool :=
  ⟨some fd, false, none, fun _ => .idle, none, 0⟩

theorem init_start (fd : Nat) : Init fd (State.start fd) :=
  ⟨rfl, rfl, rfl, fun _ => rfl, rfl, rfl⟩

/-- A `send_all` is parked when the connection is closed: the close wakes it. -/
theorem closed_descriptor_not_used_parked : ∃ s : State Bool, Released s ∧ s.freed = some 7 ∧
      s.pc false = .woken ⟨.sendAll, some 7, 3⟩ false := by
  obtain ⟨s, hr, hp⟩ := (conn Bool 7 1).reachesWith Checked
    (fun s => s.freed = some 7 ∧ s.pc false = .woken ⟨.sendAll, some 7, 3⟩ false)
    [⟨false, .call .sendAll 5⟩, ⟨false, .check⟩, ⟨false, .load⟩, ⟨false, .sys (.progress 2)⟩,
      ⟨false, .sys .wouldBlock⟩, ⟨false, .wait none⟩, ⟨false, .link 0⟩, ⟨true, .close⟩,
      ⟨true, .claim⟩, ⟨true, .cancel⟩, ⟨true, .cancel⟩, ⟨true, .unregister⟩, ⟨true, .closesock⟩]
    (init_start 7) (by decide +kernel)
  exact ⟨s, closed_descriptor_not_used Bool 7 1 s hr, hp⟩

/-- The connection is closed after a send has read the descriptor, which may be another file's then. -/
theorem send_uses_closed_descriptor : (¬∀ s : State Bool, (conn Bool 7 1).Reachable s → s.stale = 0) ∧
    ¬∀ s : State Bool, (conn Bool 7 1).Reachable s → s.freed ≠ none → ∀ t io pool, s.pc t ≠ .parked io pool := by
  constructor
  · intro hclaim
    obtain ⟨s, hr, hstale⟩ := (conn Bool 7 1).reaches (fun s => s.stale = 1)
      [⟨false, .call .send 5⟩, ⟨false, .check⟩, ⟨false, .load⟩, ⟨true, .close⟩, ⟨true, .claim⟩,
        ⟨true, .cancel⟩, ⟨true, .cancel⟩, ⟨true, .unregister⟩, ⟨true, .closesock⟩,
        ⟨false, .sys (.progress 5)⟩]
      (init_start 7) (by decide +kernel)
    rw [hclaim s hr] at hstale
    cases hstale
  · intro hclaim
    obtain ⟨s, hr, hfreed, hpark⟩ := (conn Bool 7 1).reaches
      (fun s => s.freed = some 7 ∧ s.pc false = .parked ⟨.send, some 7, 5⟩ 0)
      [⟨false, .call .send 5⟩, ⟨false, .check⟩, ⟨false, .load⟩, ⟨false, .sys .wouldBlock⟩,
        ⟨false, .wait none⟩, ⟨true, .close⟩, ⟨true, .claim⟩, ⟨true, .cancel⟩, ⟨true, .cancel⟩,
        ⟨true, .unregister⟩, ⟨true, .closesock⟩, ⟨false, .link 0⟩]
      (init_start 7) (by decide +kernel)
    exact hclaim s hr (by rw [hfreed]; nofun) _ _ _ hpark

end Runloom.TcpConn
