import Runloom.Once
import Runloom.SingleFlight.Model

/-!
# Singleflight: one execution at a time for a key

The entry of a key is there exactly while its executor is between the section that makes it and the one that deletes
it.
-/

namespace Runloom.SingleFlight

open Transition Handoff Future

variable {F K V E : Type*}

namespace Phase

def inFlight : Phase K V E → Option (K × ℕ)
  | .fn key e | .remove key e _ => some (key, e)
  | _ => none

def owns : Phase K V E → Option ℕ
  | .fn _ e | .remove _ e _ | .resolve _ e _ => some e
  | .join .. => none

def joins : Phase K V E → Option ℕ
  | .join _ e => some e
  | _ => none

def Known (outcomes : ℕ → Option (Outcome V E)) : Phase K V E → Prop
  | .fn _ e => outcomes e = none
  | .remove _ e o | .resolve _ e o => outcomes e = some o
  | .join .. => True

theorem owns_of_inFlight {b : Phase K V E} {key : K} {e : ℕ} (h : b.inFlight = some (key, e)) :
    b.owns = some e := by
  cases b <;> simp_all [inFlight, owns]

end Phase

def Result.Known (outcomes : ℕ → Option (Outcome V E)) : Result V E → Prop
  | .ran e o | .shared e o => outcomes e = some o
  | .alreadyResolved => False

def lists (cells : ℕ → Cell F V E) : Phase K V E → List F
  | .join _ e => (cells e).waiters
  | _ => []

variable {s t : State F K V E} {f g : F} {b : Phase K V E} {key : K} {e : ℕ} {o : Outcome V E}

/-- The executors and the entries; `role` has what each fiber has begun. -/
structure Executors (role : F → Option (Phase K V E)) (calls : K → Option ℕ) (made : ℕ)
    (cells : ℕ → Cell F V E) (outcomes : ℕ → Option (Outcome V E)) : Prop where
  entry : ∀ f b key e, role f = some b → b.inFlight = some (key, e) → calls key = some e
  executor : ∀ key e, calls key = some e → ∃ f b, role f = some b ∧ b.inFlight = some (key, e)
  unique : ∀ f g b b' e, role f = some b → role g = some b' → b.owns = some e → b'.owns = some e → f = g
  opened : ∀ f b e, role f = some b → b.owns = some e → e < made ∧ (cells e).done = false
  known : ∀ f b, role f = some b → b.Known outcomes

/-- The futures. -/
structure Futures (s : State F K V E) : Prop where
  fresh : ∀ e, s.made ≤ e → s.cells e = .empty ∧ s.outcomes e = none
  done : ∀ e, (s.cells e).done = true → (s.cells e).waiters = [] ∧ s.outcomes e = some (s.cells e).outcome

/-- The callers that share a result. -/
structure Joiners (s : State F K V E) : Prop where
  begun : ∀ f b e, (s.lobby.pc f).begun = some b → b.joins = some e → e < s.made ∧ s.found f = some e
  loops : ∀ f b, (s.lobby.pc f).loops = some b → ∃ key e, b = .join key e ∧ e < s.made ∧ s.found f = some e ∧
    ((s.cells e).done = false → f ∈ (s.cells e).waiters)
  results : ∀ f r, (s.lobby.pc f).result = some r → r.Known s.outcomes ∧ ∀ e o, r = .shared e o → s.found f = some e

structure Inv (s : State F K V E) : Prop where
  executors : Executors (fun f => (s.lobby.pc f).begun) s.calls s.made s.cells s.outcomes
  futures : Futures s
  joiners : Joiners s
  safe : s.lobby.Safe (lists s.cells)

/-! ## The executors -/

section Executors

variable {role : F → Option (Phase K V E)} {calls : K → Option ℕ} {made : ℕ} {cells : ℕ → Cell F V E}
  {outcomes : ℕ → Option (Outcome V E)} [DecidableEq F]

section

variable (h : Executors role calls made cells outcomes)
include h

theorem Executors.stand {x : Option (Phase K V E)}
    (hold : ∀ b, role f = some b → b.owns = none) (hnew : ∀ b, x = some b → b.owns = none ∧ b.Known outcomes) :
    Executors (update role f x) calls made cells outcomes := by
  -- Whoever executes is not `f`, before and after.
  have hback : ∀ g b e, update role f x g = some b → b.owns = some e → role g = some b := by
    intro g b e hg hb
    by_cases hgf : g = f
    · subst hgf
      rw [update_self] at hg
      rw [(hnew b hg).1] at hb
      cases hb
    · rwa [update_of_ne hgf] at hg
  refine ⟨fun g b key e hg hb => ?_, fun key e he => ?_, fun g g' b b' e hg hg' hb hb' => ?_,
    fun g b e hg hb => ?_, fun g b hg => ?_⟩
  · exact h.entry g b key e (hback g b e hg (Phase.owns_of_inFlight hb)) hb
  · obtain ⟨g, b, hg, hb⟩ := h.executor key e he
    refine ⟨g, b, ?_, hb⟩
    rw [update_of_ne, hg]
    rintro rfl
    have := hold b hg
    rw [Phase.owns_of_inFlight hb] at this
    cases this
  · exact h.unique g g' b b' e (hback g b e hg hb) (hback g' b' e hg' hb') hb hb'
  · exact h.opened g b e (hback g b e hg hb) hb
  · by_cases hgf : g = f
    · subst hgf
      rw [update_self] at hg
      exact (hnew b hg).2
    · rw [update_of_ne hgf] at hg
      exact h.known g b hg

omit [DecidableEq F] in
theorem Executors.ne_of_owns {b' : Phase K V E} {e' : ℕ}
    (hf : role f = some b) (hb : b.owns = some e) (hgf : g ≠ f) (hg : role g = some b') (hb' : b'.owns = some e') :
    e' ≠ e := by
  rintro rfl
  exact hgf (h.unique g f b' b e' hg hf hb' hb)

theorem Executors.begin [DecidableEq K] {cells' : ℕ → Cell F V E}
    (hf : role f = none) (hkey : calls key = none) (hcells : ∀ e, e ≠ made → cells' e = cells e)
    (hnew : (cells' made).done = false) (hout : outcomes made = none) :
    Executors (update role f (some (.fn key made))) (update calls key (some made)) (made + 1)
      cells' outcomes := by
  -- Every fiber is the new executor, or is as it was.
  have hcases : ∀ g b, update role f (some (.fn key made)) g = some b →
      g = f ∧ b = .fn key made ∨ g ≠ f ∧ role g = some b := by
    intro g b hg
    by_cases hgf : g = f
    · subst hgf
      rw [update_self] at hg
      exact .inl ⟨rfl, (Option.some.inj hg).symm⟩
    · rw [update_of_ne hgf] at hg
      exact .inr ⟨hgf, hg⟩
  -- The number of the new execution is above those in use.
  have hlt : ∀ {g b e}, role g = some b → b.owns = some e → e < made := fun hg hb => (h.opened _ _ _ hg hb).1
  refine ⟨fun g b k e hg hb => ?_, fun k e he => ?_, fun g g' b b' e hg hg' hb hb' => ?_, fun g b e hg hb => ?_,
    fun g b hg => ?_⟩
  · rcases hcases g b hg with ⟨rfl, rfl⟩ | ⟨-, hg⟩
    · cases hb
      exact update_self ..
    · have hk := h.entry g b k e hg hb
      rw [update_of_ne, hk]
      rintro rfl
      rw [hkey] at hk
      cases hk
  -- The entry of the key was free, so nobody loses one.
  · by_cases hk : k = key
    · subst hk
      rw [update_self] at he
      cases he
      exact ⟨f, .fn k made, update_self .., rfl⟩
    · rw [update_of_ne hk] at he
      obtain ⟨g, b, hg, hb⟩ := h.executor k e he
      refine ⟨g, b, ?_, hb⟩
      rw [update_of_ne, hg]
      rintro rfl
      rw [hf] at hg
      cases hg
  · rcases hcases g b hg with ⟨rfl, rfl⟩ | ⟨-, hr⟩ <;> rcases hcases g' b' hg' with ⟨rfl, rfl⟩ | ⟨-, hr'⟩
    · rfl
    · cases hb
      exact absurd (hlt hr' hb') (Nat.lt_irrefl _)
    · cases hb'
      exact absurd (hlt hr hb) (Nat.lt_irrefl _)
    · exact h.unique g g' b b' e hr hr' hb hb'
  · rcases hcases g b hg with ⟨rfl, rfl⟩ | ⟨-, hg⟩
    · cases hb
      exact ⟨Nat.lt_succ_self _, hnew⟩
    · obtain ⟨hlt, hd⟩ := h.opened g b e hg hb
      refine ⟨Nat.lt_succ_of_lt hlt, ?_⟩
      rw [hcells e (Nat.ne_of_lt hlt)]
      exact hd
  · rcases hcases g b hg with ⟨rfl, rfl⟩ | ⟨-, hg⟩
    · exact hout
    · exact h.known g b hg

theorem Executors.advance {b' : Phase K V E} {calls' : K → Option ℕ} {outcomes' : ℕ → Option (Outcome V E)}
    (hf : role f = some b) (hb : b.owns = some e)
    (hb' : b'.owns = some e)
    (hentry : ∀ g b k e, update role f (some b') g = some b → b.inFlight = some (k, e) → calls' k = some e)
    (hexec : ∀ k e, calls' k = some e → ∃ g b, update role f (some b') g = some b ∧ b.inFlight = some (k, e))
    (hknown : b'.Known outcomes') (hout : ∀ e', e' ≠ e → outcomes' e' = outcomes e') :
    Executors (update role f (some b')) calls' made cells outcomes' := by
  -- What a fiber owns is what it owned before.
  have hback : ∀ g b₁ e₁, update role f (some b') g = some b₁ → b₁.owns = some e₁ →
      ∃ b₀, role g = some b₀ ∧ b₀.owns = some e₁ := by
    intro g b₁ e₁ hg hb₁
    by_cases hgf : g = f
    · subst hgf
      rw [update_self] at hg
      cases hg
      rw [hb'] at hb₁
      cases hb₁
      exact ⟨b, hf, hb⟩
    · rw [update_of_ne hgf] at hg
      exact ⟨b₁, hg, hb₁⟩
  refine ⟨hentry, hexec, fun g g' b₁ b₂ e₁ hg hg' hb₁ hb₂ => ?_, fun g b₁ e₁ hg hb₁ => ?_, fun g b₁ hg => ?_⟩
  · obtain ⟨c₁, hc₁, ho₁⟩ := hback g b₁ e₁ hg hb₁
    obtain ⟨c₂, hc₂, ho₂⟩ := hback g' b₂ e₁ hg' hb₂
    exact h.unique g g' c₁ c₂ e₁ hc₁ hc₂ ho₁ ho₂
  · obtain ⟨c₁, hc₁, ho₁⟩ := hback g b₁ e₁ hg hb₁
    exact h.opened g c₁ e₁ hc₁ ho₁
  · by_cases hgf : g = f
    · subst hgf
      rw [update_self] at hg
      cases hg
      exact hknown
    · rw [update_of_ne hgf] at hg
      have hk := h.known g b₁ hg
      cases b₁ with
      | fn k e₁ =>
        show outcomes' e₁ = none
        rw [hout e₁ (h.ne_of_owns hf hb hgf hg rfl)]
        exact hk
      | remove k e₁ o₁ | resolve k e₁ o₁ =>
        show outcomes' e₁ = some o₁
        rw [hout e₁ (h.ne_of_owns hf hb hgf hg rfl)]
        exact hk
      -- A caller that joins knows no outcome yet.
      | join => trivial

theorem Executors.fn (hf : role f = some (.fn key e)) (o : Outcome V E) :
    Executors (update role f (some (.remove key e o))) calls made cells (update outcomes e (some o)) := by
  refine h.advance hf rfl rfl (fun g b k e' hg hb => ?_) (fun k e' he => ?_) (update_self ..)
    fun e' he => update_of_ne he ..
  · by_cases hgf : g = f
    · subst hgf
      rw [update_self] at hg
      cases hg
      exact h.entry g _ k e' hf hb
    · rw [update_of_ne hgf] at hg
      exact h.entry g b k e' hg hb
  · obtain ⟨g, b, hg, hb⟩ := h.executor k e' he
    by_cases hgf : g = f
    · subst hgf
      rw [hf] at hg
      cases hg
      exact ⟨g, _, update_self .., hb⟩
    · refine ⟨g, b, ?_, hb⟩
      rw [update_of_ne hgf]
      exact hg

theorem Executors.remove [DecidableEq K] (hf : role f = some (.remove key e o)) :
    Executors (update role f (some (.resolve key e o))) (update calls key none) made cells
      outcomes := by
  have hkey : calls key = some e := h.entry f _ key e hf rfl
  have hknown : outcomes e = some o := h.known f _ hf
  refine h.advance hf rfl rfl (fun g b k e' hg hb => ?_) (fun k e' he => ?_) hknown fun _ _ => rfl
  · by_cases hgf : g = f
    · subst hgf
      rw [update_self] at hg
      cases hg
      cases hb
    · rw [update_of_ne hgf] at hg
      have hk := h.entry g b k e' hg hb
      rw [update_of_ne, hk]
      -- Two executors of one key would have one execution.
      rintro rfl
      rw [hkey] at hk
      cases hk
      exact h.ne_of_owns hf rfl hgf hg (Phase.owns_of_inFlight hb) rfl
  · have hk : k ≠ key := by
      rintro rfl
      rw [update_self] at he
      cases he
    rw [update_of_ne hk] at he
    obtain ⟨g, b, hg, hb⟩ := h.executor k e' he
    refine ⟨g, b, ?_, hb⟩
    rw [update_of_ne, hg]
    rintro rfl
    rw [hf] at hg
    cases hg
    cases hb
    exact hk rfl

theorem Executors.leave {cells' : ℕ → Cell F V E}
    (hf : role f = some (.resolve key e o)) (hcells : ∀ e', e' ≠ e → cells' e' = cells e') :
    Executors (update role f none) calls made cells' outcomes := by
  have hback : ∀ g b, update role f none g = some b → g ≠ f ∧ role g = some b := by
    intro g b hg
    have hgf : g ≠ f := by
      rintro rfl
      rw [update_self] at hg
      cases hg
    rw [update_of_ne hgf] at hg
    exact ⟨hgf, hg⟩
  refine ⟨fun g b k e' hg hb => h.entry g b k e' (hback g b hg).2 hb, fun k e' he => ?_,
    fun g g' b b' e' hg hg' => h.unique g g' b b' e' (hback g b hg).2 (hback g' b' hg').2,
    fun g b e' hg hb => ?_, fun g b hg => h.known g b (hback g b hg).2⟩
  · obtain ⟨g, b, hg, hb⟩ := h.executor k e' he
    refine ⟨g, b, ?_, hb⟩
    rw [update_of_ne, hg]
    rintro rfl
    rw [hf] at hg
    cases hg
    cases hb
  · obtain ⟨hgf, hg⟩ := hback g b hg
    rw [hcells e' (h.ne_of_owns hf rfl hgf hg hb)]
    exact h.opened g b e' hg hb

end

end Executors

/-! ## The steps -/

section Steps

variable [DecidableEq F] {p : Place F (Phase K V E) (Result V E)}

theorem begun_goto {x : Lobby F (Phase K V E) (Result V E)} :
    (fun g => ((x.goto f p).pc g).begun) = update (fun g => (x.pc g).begun) f p.begun := by
  funext g
  by_cases hgf : g = f
  · subst hgf
    rw [Lobby.goto_self, update_self]
  · rw [Lobby.goto_of_ne hgf, update_of_ne hgf]

omit [DecidableEq F] in
theorem Inv.init (h : Init s) : Inv s where
  executors := {
    entry := fun f b key e hf => by
      rw [h.pc] at hf
      cases hf
    executor := fun key e he => by
      rw [h.calls] at he
      cases he
    unique := fun f g b b' e hf => by
      rw [h.pc] at hf
      cases hf
    opened := fun f b e hf => by
      rw [h.pc] at hf
      cases hf
    known := fun f b hf => by
      rw [h.pc] at hf
      cases hf }
  futures := ⟨fun e _ => ⟨h.cells e, h.outcomes e⟩, fun e he => by
    rw [h.cells] at he
    cases he⟩
  joiners := {
    begun := fun f b e hf => by
      rw [h.pc] at hf
      cases hf
    loops := fun f b hf => by
      rw [h.pc] at hf
      cases hf
    results := fun f r hf => by
      rw [h.pc] at hf
      cases hf }
  safe := Lobby.safe_of_idle h.pc

theorem Joiners.goto (h : Joiners s) {calls : K → Option ℕ} {cells : ℕ → Cell F V E} {made : ℕ}
    {outcomes : ℕ → Option (Outcome V E)} {found : F → Option ℕ} (hmade : s.made ≤ made)
    (hfound : ∀ g, g ≠ f → found g = s.found g)
    (hcells : ∀ e g, g ≠ f → (cells e).done = false → (s.cells e).done = false ∧
      (g ∈ (s.cells e).waiters → g ∈ (cells e).waiters))
    (hout : ∀ e o, s.outcomes e = some o → outcomes e = some o)
    (hbegun : ∀ b e, p.begun = some b → b.joins = some e → e < made ∧ found f = some e)
    (hloops : ∀ b, p.loops = some b → ∃ key e, b = .join key e ∧ e < made ∧ found f = some e ∧
      ((cells e).done = false → f ∈ (cells e).waiters))
    (hres : ∀ r, p.result = some r → r.Known outcomes ∧ ∀ e o, r = .shared e o → found f = some e) :
    Joiners ({ s with
      calls := calls
      cells := cells
      made := made
      outcomes := outcomes
      found := found }.goto f p) where
  begun g b e hg hb := by
    by_cases hgf : g = f
    · subst hgf
      rw [State.goto_self] at hg
      exact hbegun b e hg hb
    · rw [State.goto_of_ne _ _ hgf] at hg
      obtain ⟨hlt, he⟩ := h.begun g b e hg hb
      exact ⟨Nat.lt_of_lt_of_le hlt hmade, (hfound g hgf).trans he⟩
  loops g b hg := by
    by_cases hgf : g = f
    · subst hgf
      rw [State.goto_self] at hg
      exact hloops b hg
    · rw [State.goto_of_ne _ _ hgf] at hg
      obtain ⟨key, e, rfl, he, hf, hin⟩ := h.loops g b hg
      refine ⟨key, e, rfl, Nat.lt_of_lt_of_le he hmade, (hfound g hgf).trans hf, fun hd => ?_⟩
      -- The list of an open future only grows.
      obtain ⟨hd', hsub⟩ := hcells e g hgf hd
      exact hsub (hin hd')
  results g r hg := by
    by_cases hgf : g = f
    · subst hgf
      rw [State.goto_self] at hg
      exact hres r hg
    · rw [State.goto_of_ne _ _ hgf] at hg
      obtain ⟨hr, hf⟩ := h.results g r hg
      refine ⟨?_, fun e o he => (hfound g hgf).trans (hf e o he)⟩
      cases r with
      | ran e o | shared e o => exact hout e o hr
      | alreadyResolved => exact hr

section

variable (hI : Inv s)
include hI

omit [DecidableEq F] in
theorem Inv.setLobby {lobby : Lobby F (Phase K V E) (Result V E)}
    (hbegun : ∀ f, (lobby.pc f).begun = (s.lobby.pc f).begun)
    (hloops : ∀ f, (lobby.pc f).loops = (s.lobby.pc f).loops)
    (hres : ∀ f r, (lobby.pc f).result = some r → (s.lobby.pc f).result = some r)
    (hsafe : lobby.Safe (lists s.cells)) : Inv { s with lobby := lobby } where
  executors := by
    show Executors (fun f => (lobby.pc f).begun) s.calls s.made s.cells s.outcomes
    rw [show (fun f => (lobby.pc f).begun) = fun f => (s.lobby.pc f).begun from funext hbegun]
    exact hI.executors
  futures := ⟨hI.futures.fresh, hI.futures.done⟩
  joiners := {
    begun := fun f b e hf => by
      rw [show (lobby.pc f).begun = _ from hbegun f] at hf
      exact hI.joiners.begun f b e hf
    loops := fun f b hf => by
      rw [show (lobby.pc f).loops = _ from hloops f] at hf
      exact hI.joiners.loops f b hf
    results := fun f r hf => hI.joiners.results f r (hres f r hf) }
  safe := hsafe

theorem Inv.goto {found : F → Option ℕ} (hw : (s.lobby.pc f).toWake = [])
    (hfound : ∀ g, g ≠ f → found g = s.found g)
    (hold : ∀ b, (s.lobby.pc f).begun = some b → b.owns = none)
    (hbegun : ∀ b, p.begun = some b → b.owns = none ∧ b.Known s.outcomes ∧
      ∀ e, b.joins = some e → e < s.made ∧ found f = some e)
    (hloops : ∀ b, p.loops = some b → ∃ key e, b = .join key e ∧ e < s.made ∧ found f = some e ∧
      ((s.cells e).done = false → f ∈ (s.cells e).waiters))
    (hsleeps : ∀ b, p.sleeps = some b → f ∈ lists s.cells b)
    (hres : ∀ r, p.result = some r → r.Known s.outcomes ∧ ∀ e o, r = .shared e o → found f = some e) :
    Inv ({ s with found := found }.goto f p) where
  executors := by
    show Executors (fun g => ((s.lobby.goto f p).pc g).begun) _ _ _ _
    rw [begun_goto]
    exact hI.executors.stand hold fun b hb => ⟨(hbegun b hb).1, (hbegun b hb).2.1⟩
  futures := ⟨hI.futures.fresh, hI.futures.done⟩
  joiners := hI.joiners.goto (Nat.le_refl _) hfound (fun _ _ _ hd => ⟨hd, id⟩) (fun _ _ => id)
    (fun b e hb he => (hbegun b hb).2.2 e he) hloops hres
  safe := hI.safe.goto hw (fun _ _ _ => Or.inl) hsleeps

theorem Inv.join (hpc : s.lobby.pc f = .idle) (hkey : s.calls key = some e) :
    Inv ({ s with found := update s.found f (s.calls key) }.goto f (.busy (.join key e))) := by
  refine hI.goto (by rw [hpc]; rfl) (fun g hg => update_of_ne hg ..) (fun b hb => ?_) (fun b hb => ?_)
    nofun nofun nofun
  · rw [hpc] at hb
    cases hb
  · cases hb
    refine ⟨rfl, trivial, fun e' he => ?_⟩
    cases he
    obtain ⟨g, b, hg, hb⟩ := hI.executors.executor key e hkey
    refine ⟨(hI.executors.opened g b e hg (Phase.owns_of_inFlight hb)).1, ?_⟩
    rw [update_self, hkey]

theorem Inv.begin [DecidableEq K] (hpc : s.lobby.pc f = .idle) (hkey : s.calls key = none) : Inv ({ s with
      found := update s.found f (s.calls key)
      calls := update s.calls key (some s.made)
      cells := update s.cells s.made .empty
      made := s.made + 1 }.goto f (.busy (.fn key s.made))) := by
  -- A future that is not made yet is as a new one, so that its making changes nothing.
  obtain ⟨hempty, hout⟩ := hI.futures.fresh s.made (Nat.le_refl _)
  have hcells : update s.cells s.made .empty = s.cells := by
    rw [← hempty, update_eq_self]
  rw [hcells]
  refine ⟨?_, ⟨fun e he => hI.futures.fresh e (Nat.le_of_succ_le he), hI.futures.done⟩,
    hI.joiners.goto (Nat.le_succ _) (fun g hg => update_of_ne hg ..) (fun _ _ _ hd => ⟨hd, id⟩)
      (fun _ _ => id) (fun b e hb he => ?_) nofun nofun,
    hI.safe.goto (by rw [hpc]; rfl) (fun _ _ _ => Or.inl) nofun⟩
  · show Executors (fun g => ((s.lobby.goto f (.busy (.fn key s.made))).pc g).begun) _ (s.made + 1) s.cells _
    rw [begun_goto]
    refine hI.executors.begin (by rw [hpc]; rfl) hkey (fun _ _ => rfl) ?_ hout
    rw [hempty]
    rfl
  · cases hb
    cases he

theorem Inv.call [DecidableEq K] (hpc : s.lobby.pc f = .idle) (key : K) : Inv (s.call f key) := by
  unfold State.call
  dsimp only
  split
  next e hkey => exact hI.join hpc hkey
  next hkey => exact hI.begin hpc hkey

theorem Inv.fn (hpc : s.lobby.pc f = .busy (.fn key e)) (o : Outcome V E) : Inv (s.fn f key e o) := by
  have hrole : (s.lobby.pc f).begun = some (.fn key e) := by
    rw [hpc]
    rfl
  have hnone : s.outcomes e = none := hI.executors.known f _ hrole
  obtain ⟨hlt, hopen⟩ := hI.executors.opened f _ e hrole rfl
  have hout : ∀ e' o', s.outcomes e' = some o' → update s.outcomes e (some o) e' = some o' := by
    intro e' o' he'
    rw [update_of_ne, he']
    rintro rfl
    rw [hnone] at he'
    cases he'
  refine ⟨?_, ⟨fun e' he' => ⟨(hI.futures.fresh e' he').1, ?_⟩, fun e' he' => ?_⟩,
    hI.joiners.goto (Nat.le_refl _) (fun _ _ => rfl) (fun _ _ _ hd => ⟨hd, id⟩) hout (fun b e' hb he' => ?_) nofun nofun,
    hI.safe.goto (by rw [hpc]; rfl) (fun _ _ _ => Or.inl) nofun⟩
  · show Executors (fun g => ((s.lobby.goto f (.busy (.remove key e o))).pc g).begun) _ _ _ _
    rw [begun_goto]
    exact hI.executors.fn hrole o
  · show update s.outcomes e (some o) e' = none
    rw [update_of_ne (Nat.ne_of_gt (Nat.lt_of_lt_of_le hlt he'))]
    exact (hI.futures.fresh e' he').2
  · exact ⟨(hI.futures.done e' he').1, hout e' _ (hI.futures.done e' he').2⟩
  · cases hb
    cases he'

theorem Inv.remove [DecidableEq K] (hpc : s.lobby.pc f = .busy (.remove key e o)) : Inv (s.remove f key e o) := by
  have hrole : (s.lobby.pc f).begun = some (.remove key e o) := by
    rw [hpc]
    rfl
  simp only [State.remove, if_pos (hI.executors.entry f _ key e hrole rfl)]
  refine ⟨?_, ⟨hI.futures.fresh, hI.futures.done⟩,
    hI.joiners.goto (Nat.le_refl _) (fun _ _ => rfl) (fun _ _ _ hd => ⟨hd, id⟩) (fun _ _ => id)
      (fun b e' hb he' => ?_) nofun nofun,
    hI.safe.goto (by rw [hpc]; rfl) (fun _ _ _ => Or.inl) nofun⟩
  · show Executors (fun g => ((s.lobby.goto f (.busy (.resolve key e o))).pc g).begun) _ _ _ _
    rw [begun_goto]
    exact hI.executors.remove hrole
  · cases hb
    cases he'

theorem Inv.resolve (hpc : s.lobby.pc f = .busy (.resolve key e o)) : Inv (s.resolve f e o) := by
  have hrole : (s.lobby.pc f).begun = some (.resolve key e o) := by
    rw [hpc]
    rfl
  have hknown : s.outcomes e = some o := hI.executors.known f _ hrole
  obtain ⟨hlt, hopen⟩ := hI.executors.opened f _ e hrole rfl
  have hcell : (s.cells e).resolve (resolveArgs o).1 (resolveArgs o).2 =
      some (⟨true, (resolveArgs o).1, (resolveArgs o).2, []⟩, (s.cells e).waiters) := by
    unfold Cell.resolve
    rw [hopen]
    rfl
  simp only [State.resolve, hcell]
  -- The future was open until now: only its executor resolves it.
  set cell : Cell F V E := ⟨true, (resolveArgs o).1, (resolveArgs o).2, []⟩ with hdef
  have hother : ∀ e', e' ≠ e → update s.cells e cell e' = s.cells e' :=
    fun e' he' => update_of_ne he' ..
  have houtcome : cell.outcome = o := by
    cases o <;> rfl
  refine ⟨?_, ⟨fun e' he' => ⟨?_, (hI.futures.fresh e' he').2⟩, fun e' he' => ?_⟩,
    hI.joiners.goto (Nat.le_refl _) (fun _ _ => rfl) (fun e' g hgf hd => ?_) (fun _ _ => id)
      (fun b e' hb => ?_) (fun b hb => ?_) (fun r hr => ?_),
    hI.safe.goto (by rw [hpc]; rfl) (fun g b hgf hg => ?_) fun b hb => ?_⟩
  · show Executors (fun g => ((s.lobby.goto f (.finish (s.cells e).waiters (.ran e o))).pc g).begun) _ _ _ _
    rw [begun_goto, Place.begun_finish]
    exact hI.executors.leave hrole hother
  · show update s.cells e cell e' = .empty
    rw [hother e' (Nat.ne_of_gt (Nat.lt_of_lt_of_le hlt he'))]
    exact (hI.futures.fresh e' he').1
  · by_cases hee : e' = e
    · subst hee
      show (update s.cells e' cell e').waiters = [] ∧ s.outcomes e' = some (update s.cells e' cell e').outcome
      rw [update_self, houtcome]
      exact ⟨rfl, hknown⟩
    · have he'' : (update s.cells e cell e').done = true := he'
      show (update s.cells e cell e').waiters = [] ∧ s.outcomes e' = some (update s.cells e cell e').outcome
      rw [hother e' hee] at he'' ⊢
      exact hI.futures.done e' he''
  · by_cases hee : e' = e
    · subst hee
      rw [update_self] at hd
      cases hd
    · rw [hother e' hee] at hd ⊢
      exact ⟨hd, id⟩
  · rw [Place.begun_finish] at hb
    cases hb
  · rw [Place.loops_finish] at hb
    cases hb
  · rw [Place.result_finish] at hr
    cases hr
    exact ⟨hknown, nofun⟩
  -- A sleeper on this future is taken along to be woken; the others stay in their lists.
  · rw [Place.toWake_finish]
    cases b with
    | join key' e' =>
      by_cases hee : e' = e
      · subst hee
        exact .inr hg
      · left
        show g ∈ (update s.cells e cell e').waiters
        rw [hother e' hee]
        exact hg
    | _ => cases hg
  · rw [Place.sleeps_finish] at hb
    cases hb

theorem Inv.share (hw : (s.lobby.pc f).toWake = [])
    (hold : ∀ b, (s.lobby.pc f).begun = some b → b.owns = none) (hf : s.found f = some e)
    (hd : (s.cells e).done = true) : Inv (s.goto f (.returned (.shared e (s.cells e).outcome))) := by
  refine hI.goto hw (fun _ _ => rfl) hold nofun nofun nofun fun r hr => ?_
  cases hr
  refine ⟨(hI.futures.done e hd).2, fun e' o' he => ?_⟩
  cases he
  exact hf

theorem Inv.enter (hpc : s.lobby.pc f = .busy (.join key e)) : Inv (s.enter f key e) := by
  have hw : (s.lobby.pc f).toWake = [] := by
    rw [hpc]
    rfl
  have hrole : (s.lobby.pc f).begun = some (.join key e) := by
    rw [hpc]
    rfl
  have hold : ∀ b, (s.lobby.pc f).begun = some b → b.owns = none := by
    intro b hb
    rw [hrole] at hb
    cases hb
    rfl
  obtain ⟨hlt, hf⟩ := hI.joiners.begun f _ e hrole rfl
  unfold State.enter
  split
  next hd => exact hI.share hw hold hf hd
  next hd =>
    -- The future is open, and the caller registers with it.
    set cell := (s.cells e).register f with hdef
    have hother : ∀ e', e' ≠ e → update s.cells e cell e' = s.cells e' :=
      fun e' he' => update_of_ne he' ..
    have hmem : ∀ g, g ∈ (s.cells e).waiters → g ∈ cell.waiters := fun g hg => List.mem_append_left _ hg
    have hself : f ∈ cell.waiters := List.mem_append_right _ (List.mem_singleton_self f)
    have hdone : ∀ e', (update s.cells e cell e').done = (s.cells e').done := by
      intro e'
      by_cases hee : e' = e
      · subst hee
        rw [update_self]
        rfl
      · rw [hother e' hee]
    refine ⟨?_, ⟨fun e' he' => ⟨?_, (hI.futures.fresh e' he').2⟩, fun e' he' => ?_⟩,
      hI.joiners.goto (Nat.le_refl _) (fun _ _ => rfl) (fun e' g hgf hd' => ?_) (fun _ _ => id) nofun
        (fun b hb => ?_) nofun,
      hI.safe.goto hw (fun g b hgf hg => ?_) fun b hb => ?_⟩
    · show Executors (fun g => ((s.lobby.goto f (.waiting (.join key e))).pc g).begun) s.calls s.made
        (update s.cells e cell) s.outcomes
      rw [begun_goto]
      -- To join is not to execute.
      have h := hI.executors.stand (x := none) hold nofun
      refine ⟨h.entry, h.executor, h.unique, fun g b e' hg hb => ?_, h.known⟩
      rw [hdone]
      exact h.opened g b e' hg hb
    · show update s.cells e cell e' = .empty
      rw [hother e' (Nat.ne_of_gt (Nat.lt_of_lt_of_le hlt he'))]
      exact (hI.futures.fresh e' he').1
    -- A future that is resolved is another one.
    · have hd' : (update s.cells e cell e').done = true := he'
      have hee : e' ≠ e := by
        rintro rfl
        rw [hdone] at hd'
        exact hd hd'
      show (update s.cells e cell e').waiters = [] ∧ s.outcomes e' = some (update s.cells e cell e').outcome
      rw [hother e' hee] at hd' ⊢
      exact hI.futures.done e' hd'
    · rw [hdone] at hd'
      refine ⟨hd', fun hg => ?_⟩
      by_cases hee : e' = e
      · subst hee
        rw [update_self]
        exact hmem g hg
      · rwa [hother e' hee]
    · cases hb
      refine ⟨key, e, rfl, hlt, hf, fun _ => ?_⟩
      rw [update_self]
      exact hself
    · left
      cases b with
      | join key' e' =>
        show g ∈ (update s.cells e cell e').waiters
        by_cases hee : e' = e
        · subst hee
          rw [update_self]
          exact hmem g hg
        · rw [hother e' hee]
          exact hg
      | _ => cases hg
    · cases hb
      show f ∈ (update s.cells e cell e).waiters
      rw [update_self]
      exact hself

theorem Inv.look (hpc : s.lobby.pc f = .woken (.join key e)) : Inv (s.look f key e) := by
  have hw : (s.lobby.pc f).toWake = [] := by
    rw [hpc]
    rfl
  have hold : ∀ b, (s.lobby.pc f).begun = some b → b.owns = none := by
    intro b hb
    rw [hpc] at hb
    cases hb
  obtain ⟨key', e', he, hlt, hf, hin⟩ := hI.joiners.loops f (.join key e) (by rw [hpc]; rfl)
  cases he
  unfold State.look
  split
  next hd => exact hI.share hw hold hf hd
  -- A spurious return: the caller is still in the list, as the future is open.
  next hd =>
    refine hI.goto hw (fun _ _ => rfl) hold nofun (fun b hb => ?_) (fun b hb => ?_) nofun
    · cases hb
      exact ⟨key, e, rfl, hlt, hf, hin⟩
    · cases hb
      exact hin (Bool.eq_false_iff.mpr hd)

theorem Inv.next {late : Phase K V E → Bool} {lobby : Lobby F (Phase K V E) (Result V E)}
    (hn : s.lobby.next late f = some lobby) : Inv { s with lobby := lobby } := by
  refine hI.setLobby (Lobby.next_begun hn) (Lobby.next_loops hn) (fun g r hr => ?_) (hI.safe.next hn)
  by_cases hgf : g = f
  · subst hgf
    obtain ⟨w, fs, hpc⟩ := Lobby.result_of_next hn hr
    rw [hpc]
    rfl
  · rwa [Lobby.next_pc_of_ne hn hgf] at hr

end

variable [DecidableEq K] {a : Action F K V E}

theorem Inv.step (hI : Inv s) (h : step s a = some t) : Inv t := by
  cases a with
  | call f key =>
    simp only [SingleFlight.step] at h
    split at h <;> cases h
    next hpc => exact hI.call hpc key
  | fn f o =>
    simp only [SingleFlight.step] at h
    split at h <;> cases h
    next hpc => exact hI.fn hpc o
  | remove f =>
    simp only [SingleFlight.step] at h
    split at h <;> cases h
    next hpc => exact hI.remove hpc
  | resolve f =>
    simp only [SingleFlight.step] at h
    split at h <;> cases h
    next hpc => exact hI.resolve hpc
  | enter f =>
    simp only [SingleFlight.step] at h
    split at h <;> cases h
    next hpc => exact hI.enter hpc
  | look f =>
    simp only [SingleFlight.step] at h
    split at h <;> cases h
    next hpc => exact hI.look hpc
  | next f =>
    obtain ⟨lobby, hn, rfl⟩ := Option.map_eq_some_iff.mp h
    exact hI.next hn
  | elsewhere f =>
    obtain ⟨lobby, hn, rfl⟩ := Option.map_eq_some_iff.mp h
    have hpc := Lobby.elsewhere_pc hn
    refine hI.setLobby (fun g => ?_) (fun g => ?_) (fun g r hr => ?_) (hI.safe.elsewhere hn)
    · rw [hpc]
    · rw [hpc]
    · rwa [hpc] at hr
  | poke f =>
    cases h
    exact hI.setLobby (fun _ => rfl) (fun _ => rfl) (fun _ _ => id) hI.safe.poke

theorem inv_of_reachable (h : (group F K V E).Reachable s) : Inv s :=
  h.invariant (fun _ hs => Inv.init hs) fun _ _ _ hI _ hs => hI.step hs

end Steps

/-! ## What the callers see -/

section Callers

/-- The fiber is the executor of `e`, which is in flight for `key`. -/
def Executing (s : State F K V E) (f : F) (key : K) (e : ℕ) : Prop :=
  ∃ b, s.lobby.pc f = .busy b ∧ b.inFlight = some (key, e)

variable [DecidableEq F] [DecidableEq K]

section

variable (h : (group F K V E).Reachable s)
include h

theorem calls_iff : s.calls key = some e ↔ ∃ f, Executing s f key e := by
  have hI := (inv_of_reachable h).executors
  refine ⟨fun he => ?_, ?_⟩
  · obtain ⟨f, b, hf, hb⟩ := hI.executor key e he
    exact ⟨f, b, Place.begun_eq_some.mp hf, hb⟩
  · rintro ⟨f, b, hf, hb⟩
    exact hI.entry f b key e (Place.begun_eq_some.mpr hf) hb

theorem executing_unique {e' : ℕ} (hf : Executing s f key e) (hg : Executing s g key e') : f = g := by
  have he : e = e' := by
    have h1 := (calls_iff h).mpr ⟨f, hf⟩
    have h2 := (calls_iff h).mpr ⟨g, hg⟩
    rw [h1] at h2
    exact Option.some.inj h2
  subst he
  obtain ⟨b, hf, hb⟩ := hf
  obtain ⟨b', hg, hb'⟩ := hg
  exact (inv_of_reachable h).executors.unique f g b b' e (Place.begun_eq_some.mpr hf) (Place.begun_eq_some.mpr hg)
    (Phase.owns_of_inFlight hb) (Phase.owns_of_inFlight hb')

theorem call_cases (ht : step s (.call f key) = some t) :
    (∃ e, (∃ g, Executing s g key e) ∧ t.lobby.pc f = .busy (.join key e) ∧ t.found f = some e) ∨
    (∀ g e, ¬Executing s g key e) ∧ t.lobby.pc f = .busy (.fn key s.made) ∧ s.outcomes s.made = none := by
  have hI := inv_of_reachable h
  simp only [step] at ht
  split at ht <;> cases ht
  next hpc =>
    unfold State.call
    dsimp only
    split
    next e he =>
      refine .inl ⟨e, (calls_iff h).mp he, Lobby.goto_self, ?_⟩
      show update s.found f (s.calls key) f = some e
      rw [update_self, he]
    next hnone =>
      refine .inr ⟨fun g e hg => ?_, Lobby.goto_self, (hI.futures.fresh s.made (Nat.le_refl _)).2⟩
      have := (calls_iff h).mpr ⟨g, hg⟩
      rw [hnone] at this
      cases this

theorem shared_result (hf : s.lobby.pc f = .returned (.shared e o)) :
    s.found f = some e ∧ s.outcomes e = some o := by
  obtain ⟨hknown, hfound⟩ := (inv_of_reachable h).joiners.results f (.shared e o) (by rw [hf]; rfl)
  exact ⟨hfound e o rfl, hknown⟩

theorem woken_of_resolved (hd : (s.cells e).done = true) (hf : (s.lobby.pc f).sleeps = some (.join key e)) :
    0 < s.lobby.credit f ∨ ∃ d, f ∈ (s.lobby.pc d).toWake := by
  have hI := inv_of_reachable h
  refine (hI.safe f _ hf).resolve_left ?_
  show f ∉ (s.cells e).waiters
  rw [(hI.futures.done e hd).1]
  exact List.not_mem_nil

end

end Callers

/-- One caller of a `Once` runs its function, and the others return after its end; executions of one key do not
overlap, and share their result. -/
theorem functions_run_once [DecidableEq F] [DecidableEq K] : (∀ s : Once.State F, (Once.once F).Reachable s →
      s.started.length ≤ 1 ∧ (∀ f, s.lobby.pc f ≠ .idle → s.started.length = 1) ∧
      (∀ f r, s.lobby.pc f = .returned r → s.ended.length = 1) ∧
      (s.ended ≠ [] → ∀ f, (s.lobby.pc f).sleeps.isSome →
        (f ∈ s.waiters ∧ ∃ g raised, s.lobby.pc g = .busy (.finishing raised)) ∨ 0 < s.lobby.credit f ∨
          ∃ d, f ∈ (s.lobby.pc d).toWake)) ∧
    (∀ s : State F K V E, (group F K V E).Reachable s →
      (∀ f g key e e', Executing s f key e → Executing s g key e' → f = g) ∧
      (∀ f e o, s.lobby.pc f = .returned (.shared e o) → s.found f = some e ∧ s.outcomes e = some o) ∧
      (∀ f key t, step s (.call f key) = some t →
        (∃ e, (∃ g, Executing s g key e) ∧ t.lobby.pc f = .busy (.join key e) ∧ t.found f = some e) ∨
        (∀ g e, ¬Executing s g key e) ∧ t.lobby.pc f = .busy (.fn key s.made) ∧ s.outcomes s.made = none) ∧
      (∀ f key e, (s.cells e).done = true → (s.lobby.pc f).sleeps = some (.join key e) →
        0 < s.lobby.credit f ∨ ∃ d, f ∈ (s.lobby.pc d).toWake)) := by
  refine ⟨fun s h => ⟨Once.started_le_one h, fun f hf => Once.started_of_called h hf, fun f r hf => ?_,
    fun he f hf => Once.woken_of_ended h he hf⟩, fun s h => ⟨fun f g key e e' hf hg => executing_unique h hf hg,
    fun f e o hf => shared_result h hf, fun f key t ht => call_cases h ht,
    fun f key e hd hf => woken_of_resolved h hd hf⟩⟩
  apply Once.ended_of_result h (f := f) (r := r)
  rw [hf]
  rfl

def unused : State (Fin 2) ℕ ℕ ℕ := ⟨fun _ => none, fun _ => .empty, ⟨fun _ => .idle, fun _ => 0⟩, 0,
  fun _ => none, fun _ => none⟩

/-- Fiber 1 calls a `Once` that fiber 0 runs; and it shares the exception of an execution in flight. -/
theorem functions_run_once_twoFibers :
    (∃ s, (Once.once (Fin 2)).Reachable s ∧ s.lobby.pc 1 = .returned .none ∧ s.started.length = 1 ∧
      s.ended.length = 1) ∧
    ∃ s, (group (Fin 2) ℕ ℕ ℕ).Reachable s ∧ s.lobby.pc 1 = .returned (.shared 0 (.raised 9)) ∧
      s.found 1 = some 0 ∧ s.outcomes 0 = some (.raised 9) := by
  obtain ⟨s, hs, hpc⟩ := (Once.once (Fin 2)).reaches (fun s => s.lobby.pc 1 = .returned .none)
    [.call 0, .call 1, .next 1, .fn 0 true, .complete 0, .next 0, .next 1, .look 1]
    (s := ⟨false, false, [], ⟨fun _ => .idle, fun _ => 0⟩, [], []⟩) ⟨rfl, rfl, rfl, fun _ => rfl, rfl, rfl⟩
    (by decide +kernel)
  obtain ⟨t, ht, hqc⟩ := (group (Fin 2) ℕ ℕ ℕ).reaches (fun s => s.lobby.pc 1 = .returned (.shared 0 (.raised 9)))
    [.call 0 3, .call 1 3, .enter 1, .next 1, .fn 0 (.raised 9), .remove 0, .resolve 0, .next 0, .next 1, .look 1]
    (s := unused) ⟨fun _ => rfl, fun _ => rfl, fun _ => rfl, rfl, fun _ => rfl⟩ (by decide +kernel)
  obtain ⟨-, hstarted, hended, -⟩ := (functions_run_once (V := ℕ) (E := ℕ) (K := ℕ)).1 s hs
  obtain ⟨-, hshared, -, -⟩ := functions_run_once.2 t ht
  refine ⟨⟨s, hs, hpc, hstarted 1 ?_, hended 1 _ hpc⟩, t, ht, hqc, hshared 1 0 _ hqc⟩
  rw [hpc]
  exact nofun

end Runloom.SingleFlight
