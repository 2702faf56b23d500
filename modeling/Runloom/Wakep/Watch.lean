import Runloom.Wakep.Invariant

/-!
# What a registered hub has looked at

For every place that a registered hub has found without surplus: if there is surplus now, a call that has published
some of it has kicked a hub, or is on its way and has not passed the hub's flag.
-/

namespace Runloom.Wakep

open Transition

variable {n : ℕ} {P : Type*} [DecidableEq P] {cfg : Config n} {s u : State n P} {t : Thread n P} {h i j : Fin n}
  {c : Pc n} {l : Loc n} {k : ℕ}

def Pc.inCall : Pc n → Bool
  | .drain | .checkBottom | .checkTop _ | .gate | .scan _ | .cas _ _ | .sub _ | .kick _ => true
  | _ => false

/-- In a publishing call, and not at `runloom_mn_wakep_one` yet. -/
def Pc.draining : Pc n → Bool
  | .drain | .checkBottom | .checkTop _ => true
  | _ => false

/-- The call has still to look at the flag of `h`, or has won the flag of some hub. -/
def Pc.Sees (h : Fin n) : Pc n → Prop
  | .drain | .checkBottom | .checkTop _ | .gate | .sub _ | .kick _ => True
  | .scan todo => h ∈ todo
  | .cas i todo => h ∈ i :: todo
  | _ => False

/-- The hub's look at `l` is behind it. -/
def Pc.Watches (bottom : Fin n → ℤ) (l : Loc n) : Pc n → Prop
  | .blocked | .top | .exitCas => True
  | .scanBottom todo => ∀ j ∈ todo, l ≠ .deque j
  | .scanTop b j todo => (∀ i ∈ j :: todo, l ≠ .deque i) ∨ l = .deque j ∧ b < bottom j
  | _ => False

def Watched (s : State n P) (h : Fin n) (l : Loc n) : Prop := (s.pc (.inl h)).Watches s.bottom l

def Excused (s : State n P) (t : Thread n P) (k : ℕ) : Prop :=
  s.outcome t k = some .kicked ∨ s.outcome t k = some (.turned true)

def Good (s : State n P) (h : Fin n) (t : Thread n P) (k : ℕ) : Prop :=
  Excused s t k ∨ k = s.calls t ∧ (s.pc t).Sees h

structure Watch (cfg : Config n) (s : State n P) : Prop where
  open_ : ∀ t, (s.pc t).inCall = true → s.outcome t (s.calls t) = none
  fresh : ∀ t k, s.calls t < k → s.outcome t k = none
  begun : ∀ l t k, (t, k) ∈ s.pubs l → k ≤ s.calls t
  drain : ∀ l t, (t, s.calls t) ∈ s.pubs l → (s.pc t).draining = true → ∃ i, t = .inl i ∧ l = .deque i
  check : ∀ i b, s.pc (.inl i) = .checkTop b → b = s.bottom i
  watch : ∀ h ∈ generals cfg, s.idleParked h = true → ∀ l, Watched s h l → s.Surplus cfg l →
    ∃ t k, (t, k) ∈ s.pubs l ∧ Good s h t k

omit [DecidableEq P] in
theorem Watch.init (h : Init s) : Watch cfg s where
  open_ t _ := h.outcome t _
  fresh t k _ := h.outcome t k
  begun l t k hm := by
    rw [h.pubs] at hm
    cases hm
  drain l t hm := by
    rw [h.pubs] at hm
    cases hm
  check i b hpc := by
    rw [h.pc] at hpc
    cases hpc
  watch i _ hi := by
    rw [h.idleParked] at hi
    cases hi

theorem Draining.inCall (h : c.draining = true) : c.inCall = true := by
  unfold Pc.draining at h
  split at h <;> first | rfl | cases h

theorem Watches.inCall {bottom : Fin n → ℤ} (h : c.Watches bottom l) : c.inCall = false := by
  unfold Pc.Watches at h
  split at h <;> first | rfl | exact h.elim

theorem Sees.inCall (h : c.Sees i) : c.inCall = true := by
  unfold Pc.Sees at h
  split at h <;> first | rfl | exact h.elim

/-! ## One thread moves -/

theorem Watch.move (hW : Watch cfg s) (hpc : u.pc = update s.pc t c)
    (hrunq : u.runqLen = s.runqLen) (hbottom : u.bottom = s.bottom) (htop : u.top = s.top)
    (hcalls : u.calls = s.calls) (hpubs : u.pubs = s.pubs)
    (hout : ∀ t' k, s.outcome t' k ≠ none → u.outcome t' k = s.outcome t' k)
    (hopen : ∀ t', (u.pc t').inCall = true → u.outcome t' (s.calls t') = none)
    (hfresh : ∀ t' k, s.calls t' < k → u.outcome t' k = none)
    (hdrain : c.draining = true → (s.pc t).draining = true)
    (hcheck : ∀ i b, t = .inl i → c = .checkTop b → b = s.bottom i)
    (hself : ∀ h l, t = .inl h → u.idleParked h = true → Watched u h l → s.Surplus cfg l →
      s.idleParked h = true ∧ Watched s h l)
    (hflag : ∀ h, t ≠ .inl h → u.idleParked h = true → s.idleParked h = true)
    (hsees : ∀ h l, h ∈ generals cfg → u.idleParked h = true → Watched u h l → s.Surplus cfg l →
      (t, s.calls t) ∈ s.pubs l → (s.pc t).Sees h → Excused u t (s.calls t) ∨ c.Sees h) : Watch cfg u := by
  have hsurplus : ∀ l, u.Surplus cfg l → s.Surplus cfg l := by
    intro l hl
    cases l with
    | runq =>
      show 0 < s.runqLen
      rw [← hrunq]
      exact hl
    | deque i =>
      show i ∈ _ ∧ 1 < s.bottom i - s.top i
      rw [← hbottom, ← htop]
      exact hl
  refine ⟨fun t' ht' => ?_, fun t' k hk => ?_, fun l t' k hm => ?_, fun l t' hm hd => ?_, fun i b hb => ?_,
    fun h hh hi l hl hs => ?_⟩
  · rw [hcalls]
    exact hopen t' ht'
  · rw [hcalls] at hk
    exact hfresh t' k hk
  · rw [hpubs] at hm
    rw [hcalls]
    exact hW.begun l t' k hm
  · rw [hpubs, hcalls] at hm
    refine hW.drain l t' hm ?_
    rw [hpc] at hd
    by_cases htt : t' = t
    · subst htt
      rw [update_self] at hd
      exact hdrain hd
    · rwa [update_of_ne htt] at hd
  · rw [hbottom]
    rw [hpc] at hb
    by_cases htt : Sum.inl i = t
    · subst htt
      rw [update_self] at hb
      exact hcheck i b rfl hb
    · rw [update_of_ne htt] at hb
      exact hW.check i b hb
  · have hold : s.idleParked h = true ∧ Watched s h l := by
      by_cases ht : t = .inl h
      · exact hself h l ht hi hl (hsurplus l hs)
      · refine ⟨hflag h ht hi, ?_⟩
        rwa [Watched, hpc, update_of_ne (Ne.symm ht), hbottom] at hl
    obtain ⟨t', k, hm, hg⟩ := hW.watch h hh hold.1 l hold.2 (hsurplus l hs)
    refine ⟨t', k, hpubs ▸ hm, ?_⟩
    rcases hg with (hk | hk) | ⟨rfl, hsee⟩
    · exact .inl (.inl ((hout t' k (by rw [hk]; exact nofun)).trans hk))
    · exact .inl (.inr ((hout t' k (by rw [hk]; exact nofun)).trans hk))
    · by_cases htt : t' = t
      · subst htt
        rcases hsees h l hh hi hl (hsurplus l hs) hm hsee with hex | hc
        · exact .inl hex
        · refine .inr ⟨by rw [hcalls], ?_⟩
          rw [hpc, update_self]
          exact hc
      · refine .inr ⟨by rw [hcalls], ?_⟩
        rw [hpc, update_of_ne htt]
        exact hsee

/-- `u` is `s` but for the flags, the counter and the place of `t`. -/
structure Moved (s u : State n P) (t : Thread n P) (c : Pc n) : Prop where
  pc : u.pc = update s.pc t c
  runqLen : u.runqLen = s.runqLen
  bottom : u.bottom = s.bottom
  top : u.top = s.top
  calls : u.calls = s.calls
  pubs : u.pubs = s.pubs
  outcome : u.outcome = s.outcome

theorem Moved.inCall (hm : Moved s u t c) (hW : Watch cfg s) (hc : c.inCall = true → (s.pc t).inCall = true)
    (t' : Thread n P) (ht' : (u.pc t').inCall = true) : u.outcome t' (s.calls t') = none := by
  rw [hm.outcome]
  refine hW.open_ t' ?_
  rw [hm.pc] at ht'
  by_cases htt : t' = t
  · subst htt
    rw [update_self] at ht'
    exact hc ht'
  · rwa [update_of_ne htt] at ht'

theorem Moved.fresh (hm : Moved s u t c) (hW : Watch cfg s) (t' : Thread n P) (k : ℕ) (hk : s.calls t' < k) :
    u.outcome t' k = none := by
  rw [hm.outcome]
  exact hW.fresh t' k hk

theorem Moved.watched (hm : Moved s u (.inl i) c) : Watched u i l ↔ c.Watches s.bottom l := by
  rw [Watched, hm.pc, update_self, hm.bottom]

section

variable (hW : Watch cfg s)
include hW

theorem Watch.hub (hm : Moved s u (.inl i) c) (hpc : (s.pc (.inl i)).inCall = false) (hc : c.inCall = false)
    (hself : ∀ l, u.idleParked i = true → c.Watches s.bottom l → s.Surplus cfg l →
      s.idleParked i = true ∧ Watched s i l)
    (hflag : ∀ h, h ≠ i → u.idleParked h = true → s.idleParked h = true) : Watch cfg u := by
  refine hW.move hm.pc hm.runqLen hm.bottom hm.top hm.calls hm.pubs (fun t' k _ => by rw [hm.outcome])
    (hm.inCall hW fun h => ?_) (hm.fresh hW) (fun hd => ?_) (fun j b _ hb => ?_) (fun h l ht => ?_) (fun h ht hi => ?_)
    fun h l _ _ _ _ _ hs => ?_
  · rw [hc] at h
    cases h
  · rw [Draining.inCall hd] at hc
    cases hc
  · rw [hb] at hc
    cases hc
  · cases ht
    rw [hm.watched]
    exact hself l
  · exact hflag h (fun hi => ht (by rw [hi])) hi
  · rw [Sees.inCall hs] at hpc
    cases hpc

theorem Watch.hub_blind (hm : Moved s u (.inl i) c) (hpc : (s.pc (.inl i)).inCall = false)
    (hc : c.inCall = false) (hblind : ∀ l, ¬c.Watches s.bottom l)
    (hflag : ∀ h, h ≠ i → u.idleParked h = true → s.idleParked h = true) : Watch cfg u :=
  hW.hub hm hpc hc (fun l _ hw => absurd hw (hblind l)) hflag

theorem Watch.call (hm : Moved s u t c) (hpc : (s.pc t).inCall = true)
    (hdrain : c.draining = true → (s.pc t).draining = true)
    (hcheck : ∀ i b, t = .inl i → c = .checkTop b → b = s.bottom i) (hc : c.inCall = true)
    (hflag : ∀ h, u.idleParked h = true → s.idleParked h = true)
    (hsees : ∀ h ∈ generals cfg, u.idleParked h = true → (s.pc t).Sees h → c.Sees h) : Watch cfg u := by
  refine hW.move hm.pc hm.runqLen hm.bottom hm.top hm.calls hm.pubs (fun t' k _ => by rw [hm.outcome])
    (hm.inCall hW fun _ => hpc) (hm.fresh hW) hdrain hcheck (fun h l ht _ hw => ?_) (fun h _ => hflag h)
    fun h l hh hi _ _ _ hs => .inr (hsees h hh hi hs)
  rw [Watched, hm.pc, ht, update_self] at hw
  rw [Watches.inCall hw] at hc
  cases hc

theorem Watch.finish {o : Outcome} (hpc : (s.pc t).inCall = true)
    (hsees : ∀ h l, h ∈ generals cfg → s.idleParked h = true → t ≠ .inl h → Watched s h l → s.Surplus cfg l →
      (t, s.calls t) ∈ s.pubs l → (s.pc t).Sees h → o = .kicked ∨ o = .turned true) : Watch cfg (s.finish t o) := by
  have hopen := hW.open_ t hpc
  have hself : (s.finish t o).outcome t (s.calls t) = some o := by
    show update s.outcome t (update (s.outcome t) (s.calls t) (some o)) t (s.calls t) = _
    rw [update_self, update_self]
  have hout : ∀ t' k, (t', k) ≠ (t, s.calls t) → (s.finish t o).outcome t' k = s.outcome t' k := by
    intro t' k hne
    show update s.outcome t (update (s.outcome t) (s.calls t) (some o)) t' k = _
    by_cases htt : t' = t
    · subst htt
      rw [update_self, update_of_ne fun hk => hne (by rw [hk])]
    · rw [update_of_ne htt]
  have hpc' : (s.finish t o).pc = update s.pc t .run := rfl
  refine hW.move (t := t) (c := .run) hpc' rfl rfl rfl rfl rfl (fun t' k hne => hout t' k ?_) (fun t' ht' => ?_)
    (fun t' k hk => ?_) nofun (fun _ _ _ hb => by cases hb) (fun h l ht _ hw => ?_) (fun _ _ hi => hi) fun h l hh hi hw hs hm hsee => .inl ?_
  · intro heq
    cases heq
    exact hne hopen
  · rw [hpc'] at ht'
    by_cases htt : t' = t
    · subst htt
      rw [update_self] at ht'
      cases ht'
    · rw [update_of_ne htt] at ht'
      rw [hout t' _ fun heq => htt (by cases heq; rfl)]
      exact hW.open_ t' ht'
  · rw [hout t' k fun heq => by cases heq; exact lt_irrefl _ hk]
    exact hW.fresh t' k hk
  · rw [Watched, hpc', ht, update_self] at hw
    exact hw.elim
  · have hne : t ≠ .inl h := by
      intro ht
      rw [Watched, hpc', ht, update_self] at hw
      exact hw
    have hw' : Watched s h l := by
      rwa [Watched, hpc', update_of_ne (Ne.symm hne)] at hw
    rcases hsees h l hh hi hne hw' hs hm hsee with rfl | rfl
    · exact .inl hself
    · exact .inr hself

end

theorem moved_goto : Moved s (s.goto t c) t c := ⟨rfl, rfl, rfl, rfl, rfl, rfl, rfl⟩

omit [DecidableEq P] in
theorem parked_of_clear {b : Bool} (hh : (s.setParked i b).idleParked h = true) (hb : b = false) :
    h ≠ i ∧ s.idleParked h = true := by
  subst hb
  have hh : update s.idleParked i false h = true := hh
  by_cases hi : h = i
  · subst hi
    rw [update_self] at hh
    cases hh
  · rw [update_of_ne hi] at hh
    exact ⟨hi, hh⟩

theorem Watch.clear_hub (hW : Watch cfg s) {won lost : Pc n} (hpc : (s.pc (.inl i)).inCall = false)
    (hwon : won.inCall = false) (hlost : lost.inCall = false) (hblind : ∀ l, ¬won.Watches s.bottom l) :
    Watch cfg (s.clear (.inl i) i won lost) := by
  unfold State.clear
  split
  · exact hW.hub_blind (c := won) ⟨rfl, rfl, rfl, rfl, rfl, rfl, rfl⟩ hpc hwon hblind
      fun h _ hh => (parked_of_clear hh rfl).2
  -- The flag is down already, so that the hub is not registered.
  next hi => exact hW.hub moved_goto hpc hlost (fun _ hh => absurd hh hi) fun _ _ h => h

/-! ## Calls begin, and work comes and goes -/

section

variable (hW : Watch cfg s)
include hW

theorem Watch.start (hpc : s.pc t = .run) (hc : c.inCall = true)
    (hcheck : ∀ b, c ≠ .checkTop b) : Watch cfg ((s.begin t).goto t c) := by
  have hcalls : ∀ t', t' ≠ t → ((s.begin t).goto t c).calls t' = s.calls t' :=
    fun t' ht' => update_of_ne ht' ..
  have hself : ((s.begin t).goto t c).calls t = s.calls t + 1 := update_self ..
  have hpc' : ∀ t', t' ≠ t → ((s.begin t).goto t c).pc t' = s.pc t' := fun t' ht' => update_of_ne ht' ..
  have hpct : ((s.begin t).goto t c).pc t = c := update_self ..
  refine ⟨fun t' ht' => ?_, fun t' k hk => ?_, fun l t' k hm => ?_, fun l t' hm hd => ?_, fun i b hb => ?_,
    fun h hh hi l hl hs => ?_⟩
  · by_cases htt : t' = t
    · subst htt
      rw [hself]
      exact hW.fresh t' _ (Nat.lt_succ_self _)
    · rw [hpc' t' htt] at ht'
      rw [hcalls t' htt]
      exact hW.open_ t' ht'
  · by_cases htt : t' = t
    · subst htt
      rw [hself] at hk
      exact hW.fresh t' k ((Nat.lt_succ_self _).trans hk)
    · rw [hcalls t' htt] at hk
      exact hW.fresh t' k hk
  · have hle := hW.begun l t' k hm
    by_cases htt : t' = t
    · subst htt
      rw [hself]
      exact hle.trans (Nat.le_succ _)
    · rw [hcalls t' htt]
      exact hle
  · by_cases htt : t' = t
    · subst htt
      have := hW.begun l t' _ hm
      omega
    · rw [hcalls t' htt] at hm
      rw [hpc' t' htt] at hd
      exact hW.drain l t' hm hd
  · by_cases htt : Sum.inl i = t
    · subst htt
      rw [hpct] at hb
      exact absurd hb (hcheck b)
    · rw [hpc' _ htt] at hb
      exact hW.check i b hb
  · have hne : Sum.inl h ≠ t := by
      rintro rfl
      rw [Watched, hpct] at hl
      rw [Watches.inCall hl] at hc
      cases hc
    rw [Watched, hpc' _ hne] at hl
    obtain ⟨t', k, hm, hex | ⟨hk, hsee⟩⟩ := hW.watch h hh hi l hl hs
    · exact ⟨t', k, hm, .inl hex⟩
    · have htt : t' ≠ t := by
        rintro rfl
        rw [hpc] at hsee
        exact hsee
      refine ⟨t', k, hm, .inr ⟨hk.trans (hcalls t' htt).symm, ?_⟩⟩
      rw [hpc' t' htt]
      exact hsee

section

omit [DecidableEq P]

theorem Watch.change {x : List (Thread n P × ℕ)} (hpc : u.pc = s.pc)
    (hcalls : u.calls = s.calls) (hout : u.outcome = s.outcome) (hflags : u.idleParked = s.idleParked)
    (hpubs : u.pubs = update s.pubs l x)
    (hsurplus : ∀ l', l' ≠ l → u.Surplus cfg l' → s.Surplus cfg l')
    (hbottom : ∀ j, l ≠ .deque j → u.bottom j = s.bottom j)
    (hcheck : ∀ i b, s.pc (.inl i) = .checkTop b → u.bottom i = s.bottom i)
    (hx : ∀ t k, (t, k) ∈ x → (t, k) ∈ s.pubs l ∨
      k = s.calls t ∧ ((s.pc t).draining = true → ∃ i, t = .inl i ∧ l = .deque i))
    (hgood : ∀ h ∈ generals cfg, s.idleParked h = true → (s.pc (.inl h)).Watches u.bottom l → u.Surplus cfg l →
      ∃ t k, (t, k) ∈ x ∧ Good s h t k) : Watch cfg u := by
  have hmem : ∀ l' t k, (t, k) ∈ u.pubs l' → (t, k) ∈ s.pubs l' ∨ l' = l ∧ (t, k) ∈ x := by
    intro l' t k hm
    rw [hpubs] at hm
    by_cases hl : l' = l
    · subst hl
      rw [update_self] at hm
      exact .inr ⟨rfl, hm⟩
    · rw [update_of_ne hl] at hm
      exact .inl hm
  have hgoods : ∀ h t k, Good s h t k → Good u h t k := by
    intro h t k hg
    rw [Good, Excused, hout, hcalls, hpc]
    exact hg
  refine ⟨fun t ht => ?_, fun t k hk => ?_, fun l' t k hm => ?_, fun l' t hm hd => ?_, fun i b hb => ?_,
    fun h hh hi l' hw hs => ?_⟩
  · rw [hpc] at ht
    rw [hout, hcalls]
    exact hW.open_ t ht
  · rw [hcalls] at hk
    rw [hout]
    exact hW.fresh t k hk
  · rw [hcalls]
    rcases hmem l' t k hm with hm | ⟨rfl, hm⟩
    · exact hW.begun l' t k hm
    · rcases hx t k hm with hm | ⟨rfl, -⟩
      · exact hW.begun l' t k hm
      · exact le_rfl
  · rw [hcalls] at hm
    rw [hpc] at hd
    rcases hmem l' t _ hm with hm | ⟨rfl, hm⟩
    · exact hW.drain l' t hm hd
    · rcases hx t _ hm with hm | ⟨-, hdrain⟩
      · exact hW.drain l' t hm hd
      · exact hdrain hd
  · rw [hpc] at hb
    rw [hcheck i b hb]
    exact hW.check i b hb
  · rw [hflags] at hi
    rw [Watched, hpc] at hw
    by_cases hl : l' = l
    · subst hl
      obtain ⟨t, k, hm, hg⟩ := hgood h hh hi hw hs
      refine ⟨t, k, ?_, hgoods h t k hg⟩
      rw [hpubs, update_self]
      exact hm
    · have hw' : Watched s h l' := by
        rw [Watched]
        cases hpch : s.pc (.inl h) with
        | scanTop b j todo =>
          rw [hpch] at hw
          refine hw.imp id fun hj => ⟨hj.1, ?_⟩
          rw [← hbottom j fun hlj => hl (hj.1.trans hlj.symm)]
          exact hj.2
        | _ =>
          rw [hpch] at hw
          exact hw
      obtain ⟨t, k, hm, hg⟩ := hW.watch h hh hi l' hw' (hsurplus l' hl hs)
      refine ⟨t, k, ?_, hgoods h t k hg⟩
      rw [hpubs, update_of_ne hl]
      exact hm

theorem Watch.settle {v : State n P} (hpc : v.pc = s.pc) (hcalls : v.calls = s.calls)
    (hout : v.outcome = s.outcome) (hflags : v.idleParked = s.idleParked) (hpubs : v.pubs = s.pubs)
    (hsurplus : ∀ l', v.Surplus cfg l' → s.Surplus cfg l')
    (hbottom : ∀ j, l ≠ .deque j → v.bottom j = s.bottom j)
    (hcheck : ∀ i b, s.pc (.inl i) = .checkTop b → v.bottom i = s.bottom i)
    (hle : v.Surplus cfg l → ∀ j, v.bottom j ≤ s.bottom j) : Watch cfg (v.settle cfg l) := by
  have hlist : ∀ c, c ∈ (if v.Surplus cfg l then v.pubs l else []) → c ∈ s.pubs l := by
    intro c hc
    split at hc
    · rwa [hpubs] at hc
    · cases hc
  refine hW.change hpc hcalls hout hflags (by rw [← hpubs]; rfl) (fun l' _ hs => hsurplus l' hs) hbottom hcheck
    (fun t k hm => .inl (hlist _ hm)) fun h hh hi hw hs => ?_
  have hs : v.Surplus cfg l := hs
  have hw' : Watched s h l := by
    rw [Watched]
    cases hpch : s.pc (.inl h) with
    | scanTop b j todo =>
      rw [hpch] at hw
      exact hw.imp id fun hj => ⟨hj.1, hj.2.trans_le (hle hs j)⟩
    | _ =>
      rw [hpch] at hw
      exact hw
  rw [if_pos hs, hpubs]
  exact hW.watch h hh hi l hw' (hsurplus l hs)

/-- The call of `t` has put work at `l`, and has all flags still to look at. -/
theorem Watch.publish {v : State n P} (hpc : v.pc = s.pc) (hcalls : v.calls = s.calls)
    (hout : v.outcome = s.outcome) (hflags : v.idleParked = s.idleParked) (hpubs : v.pubs = s.pubs)
    (hsurplus : ∀ l', l' ≠ l → v.Surplus cfg l' → s.Surplus cfg l')
    (hbottom : ∀ j, l ≠ .deque j → v.bottom j = s.bottom j)
    (hcheck : ∀ i b, s.pc (.inl i) = .checkTop b → v.bottom i = s.bottom i)
    (hsees : ∀ h, (s.pc t).Sees h)
    (hdrain : (s.pc t).draining = true → ∃ i, t = .inl i ∧ l = .deque i) : Watch cfg (v.publish cfg l t) := by
  refine hW.change (x := if v.Surplus cfg l then (t, v.calls t) :: v.pubs l else []) hpc hcalls hout hflags
    (by rw [← hpubs]; rfl) hsurplus hbottom hcheck (fun t' k hm => ?_) fun h hh hi hw hs => ?_
  · split at hm
    · rcases List.mem_cons.1 hm with heq | hm
      · cases heq
        exact .inr ⟨congrFun hcalls t, hdrain⟩
      · rw [hpubs] at hm
        exact .inl hm
    · cases hm
  · have hs : v.Surplus cfg l := hs
    rw [if_pos hs]
    exact ⟨t, _, List.mem_cons_self, .inr ⟨congrFun hcalls t, hsees h⟩⟩

end

end

end Runloom.Wakep
