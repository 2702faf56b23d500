import Runloom.Chan.SelectSteps
import Runloom.Select.Model

/-!
# The invariant of claims and fills

A claimed select that is not filled yet is covered by the section that claimed it: the section has the lock of the
channel, which keeps the select from going past that case in its eviction, and what is left is the load of
`fired_case`.
-/

namespace Runloom.Select

open Transition Chan

variable {H C V : Type*}

/-- Where a select may be while its case `k` is claimed and not filled. -/
def WaitsAt (pc : CallPc C V) (k : ℕ) : Prop :=
  match pc with
  | .install j => k < j
  | .abort j => k < j
  | .yielded => True
  | .load => True
  | .evict j .reload => j ≤ k
  | _ => False

def Hold.side : Hold C V → Side
  | .handOff _ _ => .recv
  | .refill _ _ => .send
  | .take _ => .send
  | .closing side _ => side

def Settles (op : Op V) (k : Slot C V) (m : List (ℕ × Got C V)) (i : ℕ) : Prop :=
  match op with
  | .send _ => k.sendResult = 0 ∧ m = [(i, .sent)] ∨ k.sendResult ≠ 0 ∧ m = []
  | .recv => (∃ x, k.value = some x ∧ m = [(i, .value (some x))]) ∨ k.value = none ∧ m = []

def Done (cases : List (Case H V)) (slot : ℕ → Slot C V) (m : List (ℕ × Got C V)) (k : ℕ) : Prop :=
  ∃ b, cases[k]? = some b ∧ Settles b.op (slot k) m k

def Waits (cases : List (Case H V)) (fired : Option ℕ) (slot : ℕ → Slot C V)
    (m : List (ℕ × Got C V)) (pending : ℕ → Prop) : Prop :=
  match fired with
  | none => m = []
  | some k => pending k ∨ Done cases slot m k

def SelectOk (cases : List (Case H V)) (pc : CallPc C V) (fired : Option ℕ) (slot : ℕ → Slot C V)
    (m : List (ℕ × Got C V)) (pending : ℕ → Prop) : Prop :=
  match pc with
  | .idle => m = []
  | .start => m = []
  | .scan _ => m = []
  | .retry => m = []
  | .install i => (∀ k, fired = some k → k < i) ∧ Waits cases fired slot m pending
  | .abort _ => Waits cases fired slot m pending
  | .yielded => Waits cases fired slot m pending
  | .load => Waits cases fired slot m pending
  | .reload => Waits cases fired slot m pending
  | .evict _ .reload => Waits cases fired slot m pending
  | .evict _ .restart => m = [] ∧ fired ≠ none
  | .evict _ (.finish k) => fired = some k ∧ Done cases slot m k
  | .finish k => fired = some k ∧ Done cases slot m k
  | .returned (.selected k got) => m = [(k, got)] ∨ got = .closed ∧ m = []
  | .returned _ => m = []
  | .parked => False

/-- The case is claimed, and the section that claimed it has not filled its slot. -/
def Pending (hold : H → Option (C × Hold C V)) (c : C) (k : ℕ) : Prop :=
  ∃ ch d h, hold ch = some (d, h) ∧ h.claimed = some (.case c k)

structure Core [DecidableEq C] (calls : C → Call H V) (queue : H → Side → List (Waiter C)) (fired : C → Option ℕ)
    (call : C → CallPc C V) (slot : Waiter C → Slot C V) (m : C → List (ℕ × Got C V))
    (hold : H → Option (C × Hold C V)) : Prop where
  op : ∀ ch side w, w ∈ queue ch side → ∃ k, opOf calls w = some k ∧ k.ch = ch ∧ k.op.side = side
  linked : ∀ ch side c i, .case c i ∈ queue ch side → LinkedAt (call c) (.case c i)
  once : ∀ ch side c i, (queue ch side).count (.case c i) ≤ 1
  claimed : ∀ ch side c i, fired c = some i → .case c i ∉ queue ch side
  held : ∀ ch d h w, hold ch = some (d, h) → h.claimed = some w →
    ∃ k, opOf calls w = some k ∧ k.ch = ch ∧ k.op.side = h.side
  waits : ∀ ch d h c i, hold ch = some (d, h) → h.claimed = some (.case c i) →
    fired c = some i ∧ WaitsAt (call c) i ∧ m c = []
  own : ∀ c cases d, calls c = .select cases d →
    SelectOk cases (call c) (fired c) (fun i => slot (.case c i)) (m c) (Pending hold c)

variable {calls : C → Call H V} {queue queue' : H → Side → List (Waiter C)} {fired : C → Option ℕ}
  {call : C → CallPc C V} {slot slot' : Waiter C → Slot C V} {m m' : C → List (ℕ × Got C V)}
  {hold : H → Option (C × Hold C V)}

/-! ## Parts -/

variable {cases : List (Case H V)} {sl : ℕ → Slot C V} {μ : List (ℕ × Got C V)} {p : ℕ → Prop}

theorem Waits.mono {f : Option ℕ} {p' : ℕ → Prop} (h : Waits cases f sl μ p) (hp : ∀ k, p k → p' k) :
    Waits cases f sl μ p' := by
  cases f with
  | none => exact h
  | some k => exact h.imp_left (hp k)

theorem SelectOk.mono {pc : CallPc C V} {f : Option ℕ} {p' : ℕ → Prop} (h : SelectOk cases pc f sl μ p)
    (hp : ∀ k, p k → p' k) : SelectOk cases pc f sl μ p' := by
  cases pc with
  | install i => exact ⟨h.1, h.2.mono hp⟩
  | abort i | yielded | load | reload => exact Waits.mono h hp
  | evict i why =>
    cases why with
    | reload => exact Waits.mono h hp
    | restart | finish k => exact h
  | idle | parked | start | scan order | finish k | retry => exact h
  | returned out => cases out <;> exact h

theorem SelectOk.fill {pc : CallPc C V} {k : ℕ} {sl' : ℕ → Slot C V}
    {μ' : List (ℕ × Got C V)} {p' : ℕ → Prop} (h : SelectOk cases pc (some k) sl μ p)
    (hw : WaitsAt pc k) (hd : Done cases sl' μ' k) : SelectOk cases pc (some k) sl' μ' p' := by
  cases pc with
  | install i => exact ⟨h.1, .inr hd⟩
  | abort i | yielded | load => exact .inr hd
  | evict i why =>
    cases why with
    | reload => exact .inr hd
    | restart | finish j => exact hw.elim
  | idle | parked | start | scan order | reload | finish j | retry | returned out => exact hw.elim

theorem SelectOk.claim {pc : CallPc C V} {k : ℕ} {c : C} (h : SelectOk cases pc none sl μ p)
    (hl : LinkedAt pc (.case c k)) :
    WaitsAt pc k ∧ μ = [] ∧ ∀ (sl' : ℕ → Slot C V) (p' : ℕ → Prop), p' k →
      SelectOk cases pc (some k) sl' μ p' := by
  cases pc with
  | install i =>
    refine ⟨hl, h.2, fun sl' p' hp => ⟨fun j hj => ?_, .inl hp⟩⟩
    cases hj
    exact hl
  | abort i => exact ⟨hl, h, fun _ _ hp => .inl hp⟩
  | yielded | load => exact ⟨trivial, h, fun _ _ hp => .inl hp⟩
  | evict i why =>
    cases why with
    | reload => exact ⟨hl, h, fun _ _ hp => .inl hp⟩
    | restart => exact absurd rfl h.2
    | finish j => cases h.1
  | idle | parked | start | scan order | reload | finish j | retry | returned out => exact hl.elim

theorem waiter_of_select {w : Waiter C} {b : Case H V} (hw : opOf calls w = some b)
    {d : Bool} (hc : calls w.call = .select cases d) :
    w = .case w.call w.index ∧ cases[w.index]? = some b := by
  cases w with
  | plain c =>
    rw [opOf_plain (c := c) hc] at hw
    cases hw
  | case c i =>
    refine ⟨rfl, ?_⟩
    simp only [opOf] at hw
    rw [show calls c = .select cases d from hc] at hw
    exact hw

variable [DecidableEq C]

/-! ## Queues -/

section

variable (h : Core calls queue fired call slot m hold)
include h

theorem Core.shrink (hq : ∀ ch side, (queue' ch side).Sublist (queue ch side)) :
    Core calls queue' fired call slot m hold where
  op ch side w hw := h.op ch side w ((hq ch side).subset hw)
  linked ch side c i hw := h.linked ch side c i ((hq ch side).subset hw)
  once ch side c i := ((hq ch side).count_le _).trans (h.once ch side c i)
  claimed ch side c i hf hw := h.claimed ch side c i hf ((hq ch side).subset hw)
  held := h.held
  waits := h.waits
  own := h.own

theorem Core.unique {ch ch' : H} {side side' : Side}
    {w : Waiter C} (hw : w ∈ queue ch side) (hw' : w ∈ queue ch' side') : ch = ch' ∧ side = side' := by
  obtain ⟨k, hk, hch, hside⟩ := h.op ch side w hw
  obtain ⟨k', hk', hch', hside'⟩ := h.op ch' side' w hw'
  rw [hk] at hk'
  cases hk'
  exact ⟨hch.symm.trans hch', hside.symm.trans hside'⟩

theorem Core.congr_slot (hslot : ∀ e i, slot' (.case e i) = slot (.case e i)) :
    Core calls queue fired call slot' m hold where
  op := h.op
  linked := h.linked
  once := h.once
  claimed := h.claimed
  held := h.held
  waits := h.waits
  own e cases d he := by
    simp only [hslot]
    exact h.own e cases d he

end

section Changes

variable [DecidableEq H]

/-! ## Sections -/

section

variable (h : Core calls queue fired call slot m hold)
include h

theorem Core.setHold {ch : H}
    {x : Option (C × Hold C V)} (hold' : ∀ d y, hold ch = some (d, y) → y.claimed = none)
    (hx : ∀ d y, x = some (d, y) → y.claimed = none) :
    Core calls queue fired call slot m (update hold ch x) where
  op := h.op
  linked := h.linked
  once := h.once
  claimed := h.claimed
  held ch' d y w hh hy := by
    by_cases hc : ch' = ch
    · rw [hc, update_self] at hh
      rw [hx d y hh] at hy
      cases hy
    · rw [update_of_ne hc] at hh
      exact h.held ch' d y w hh hy
  waits ch' d y c i hh hy := by
    by_cases hc : ch' = ch
    · rw [hc, update_self] at hh
      rw [hx d y hh] at hy
      cases hy
    · rw [update_of_ne hc] at hh
      exact h.waits ch' d y c i hh hy
  own c cases d hc := by
    refine (h.own c cases d hc).mono fun k hp => ?_
    obtain ⟨ch', e, y, hh, hy⟩ := hp
    refine ⟨ch', e, y, ?_, hy⟩
    have hne : ch' ≠ ch := by
      rintro rfl
      rw [hold' e y hh] at hy
      cases hy
    rw [update_of_ne hne]
    exact hh

theorem Core.claim {ch : H} {side : Side}
    {w : Waiter C} {d : C} {y : Hold C V} (hw : w ∈ queue ch side) (hcl : claimable fired w = true)
    (hq : ∀ ch side, (queue' ch side).Sublist (queue ch side)) (hout : (∃ c i, w = .case c i) → w ∉ queue' ch side)
    (hfree : ∀ e z, hold ch = some (e, z) → z.claimed = none) (hy : y.claimed = some w)
    (hside : y.side = side) (σ : Slot C V) :
    Core calls queue' (Chan.claim fired w) call (update slot w σ) m (update hold ch (some (d, y))) := by
  have hop := h.op ch side w hw
  have hgone : ∀ ch' side' c i, w = .case c i → w ∉ queue' ch' side' := by
    intro ch' side' c i he hmem
    obtain ⟨rfl, rfl⟩ := h.unique hw ((hq ch' side').subset hmem)
    exact hout ⟨c, i, he⟩ hmem
  have hfired : ∀ c i, w = .case c i → fired c = none := by
    rintro c i rfl
    exact claimable_case.mp hcl
  -- What the select of the waiter has been doing.
  have hselect : ∀ c i, w = .case c i → WaitsAt (call c) i ∧ m c = [] := by
    rintro c i rfl
    obtain ⟨k, hk, -, -⟩ := hop
    obtain ⟨cases, e, hc, -⟩ := select_of_opOf hk
    have hown := h.own c cases e hc
    rw [hfired c i rfl] at hown
    have := SelectOk.claim hown (h.linked ch side c i hw)
    exact ⟨this.1, this.2.1⟩
  refine ⟨fun ch' side' x hx => h.op ch' side' x ((hq ch' side').subset hx),
    fun ch' side' c i hx => h.linked ch' side' c i ((hq ch' side').subset hx),
    fun ch' side' c i => ((hq ch' side').count_le _).trans (h.once ch' side' c i),
    fun ch' side' c i hf hmem => ?_,
    fun ch' e z x hh hz => ?_, fun ch' e z c i hh hz => ?_, fun c cases e hc => ?_⟩
  · rcases fired_of_claim hf with hf | rfl
    · exact h.claimed ch' side' c i hf ((hq ch' side').subset hmem)
    · exact hgone ch' side' c i rfl hmem
  · by_cases hc : ch' = ch
    · rw [hc, update_self] at hh
      cases hh
      rw [hy] at hz
      cases hz
      rw [hside, hc]
      exact hop
    · rw [update_of_ne hc] at hh
      exact h.held ch' e z x hh hz
  · by_cases hc : ch' = ch
    · rw [hc, update_self] at hh
      cases hh
      rw [hy] at hz
      cases hz
      exact ⟨update_self .., hselect c i rfl⟩
    · rw [update_of_ne hc] at hh
      obtain ⟨hf, hwait, hm⟩ := h.waits ch' e z c i hh hz
      exact ⟨claim_of_fired hcl hf, hwait, hm⟩
  · by_cases hwc : w.call = c
    · subst hwc
      obtain ⟨k, hk, -, -⟩ := hop
      obtain ⟨hcase, -⟩ := waiter_of_select hk hc
      have hown := h.own w.call cases e hc
      rw [hfired w.call w.index hcase] at hown
      have hl := h.linked ch side w.call w.index (hcase ▸ hw)
      have hf : Chan.claim fired w w.call = some w.index := by
        rw [hcase]
        exact update_self ..
      rw [hf]
      refine (SelectOk.claim hown hl).2.2 _ _ ⟨ch, d, y, update_self .., ?_⟩
      rw [hy, ← hcase]
    · rw [claim_of_ne hwc]
      have hslot : (fun i => update slot w σ (.case c i)) = fun i => slot (.case c i) := by
        funext i
        refine update_of_ne ?_ ..
        rintro rfl
        exact hwc rfl
      rw [hslot]
      refine (h.own c cases e hc).mono fun k hp => ?_
      obtain ⟨ch', e', z, hh, hz⟩ := hp
      have hne : ch' ≠ ch := by
        rintro rfl
        rw [hfree e' z hh] at hz
        cases hz
      exact ⟨ch', e', z, by rw [update_of_ne hne]; exact hh, hz⟩

theorem Core.fill {ch : H} {d : C} {y : Hold C V}
    {w : Waiter C} {x : Option (C × Hold C V)} {σ : Slot C V} {μ : List (ℕ × Got C V)}
    (hh : hold ch = some (d, y)) (hy : y.claimed = some w)
    (hx : ∀ e z, x = some (e, z) → z.claimed = none)
    (hσ : ∀ c i b, w = .case c i → opOf calls w = some b → b.op.side = y.side → m c = [] → Settles b.op σ μ i) :
    Core calls queue fired call (update slot w σ) (update m w.call μ) (update hold ch x) := by
  obtain ⟨b, hop, hch, hside⟩ := h.held ch d y w hh hy
  -- No other section has claimed the waiter.
  have hother : ∀ ch' e z c i, update hold ch x ch' = some (e, z) →
      z.claimed = some (.case c i) → hold ch' = some (e, z) ∧ w.call ≠ c := by
    intro ch' e z c i hh' hz
    have hne : ch' ≠ ch := by
      rintro rfl
      rw [update_self] at hh'
      rw [hx e z hh'] at hz
      cases hz
    rw [update_of_ne hne] at hh'
    refine ⟨hh', ?_⟩
    rintro rfl
    obtain ⟨b', hop', hch', -⟩ := h.held ch' e z _ hh' hz
    obtain ⟨cases, e', hc, -⟩ := select_of_opOf hop'
    obtain ⟨hcase, -⟩ := waiter_of_select hop hc
    have hf := (h.waits ch' e z _ i hh' hz).1
    have hf' := (h.waits ch d y _ _ hh (hcase ▸ hy)).1
    rw [hf] at hf'
    cases hf'
    rw [← hcase, hop] at hop'
    cases hop'
    exact hne (hch'.symm.trans hch)
  refine ⟨h.op, h.linked, h.once, h.claimed, fun ch' e z v hh' hz => ?_,
    fun ch' e z c i hh' hz => ?_, fun c cases e hc => ?_⟩
  · by_cases hne : ch' = ch
    · rw [hne, update_self] at hh'
      rw [hx e z hh'] at hz
      cases hz
    · rw [update_of_ne hne] at hh'
      exact h.held ch' e z v hh' hz
  · obtain ⟨hh', hwc⟩ := hother ch' e z c i hh' hz
    rw [update_of_ne (Ne.symm hwc)]
    exact h.waits ch' e z c i hh' hz
  · by_cases hwc : w.call = c
    · subst hwc
      obtain ⟨hcase, hb⟩ := waiter_of_select hop hc
      have hwait := h.waits ch d y _ _ hh (hcase ▸ hy)
      have hown := h.own w.call cases e hc
      rw [hwait.1] at hown ⊢
      refine hown.fill hwait.2.1 ⟨b, hb, ?_⟩
      show Settles b.op (update slot w σ (.case w.call w.index)) _ _
      rw [update_self, ← hcase, update_self]
      exact hσ w.call w.index b hcase hop hside hwait.2.2
    · rw [update_of_ne (Ne.symm hwc)]
      have hslot : (fun i => update slot w σ (.case c i)) = fun i => slot (.case c i) := by
        funext i
        refine update_of_ne ?_ ..
        rintro rfl
        exact hwc rfl
      rw [hslot]
      refine (h.own c cases e hc).mono fun k hp => ?_
      obtain ⟨ch', e', z, hh', hz⟩ := hp
      have hne : ch' ≠ ch := by
        rintro rfl
        rw [hh] at hh'
        cases hh'
        rw [hy] at hz
        cases hz
        exact hwc rfl
      exact ⟨ch', e', z, by rw [update_of_ne hne]; exact hh', hz⟩

end

/-! ## Calls -/

variable {pc : CallPc C V}

section

omit [DecidableEq H]

theorem Core.move (h : Core calls queue fired call slot m hold) {c : C}
    (hm : ∀ e cases d, calls e = .select cases d → e ≠ c → m' e = m e)
    (hlinked : ∀ ch side i, .case c i ∈ queue ch side → LinkedAt (call c) (.case c i) → LinkedAt pc (.case c i))
    (hwaits : ∀ i, Pending hold c i → WaitsAt (call c) i → WaitsAt pc i ∧ m' c = [])
    (hown : ∀ cases d, calls c = .select cases d →
      SelectOk cases pc (fired c) (fun i => slot (.case c i)) (m' c) (Pending hold c)) :
    Core calls queue fired (update call c pc) slot m' hold where
  op := h.op
  linked ch side e i hw := by
    have hl := h.linked ch side e i hw
    by_cases hec : e = c
    · subst hec
      rw [update_self]
      exact hlinked ch side i hw hl
    · rw [update_of_ne hec]
      exact hl
  once := h.once
  claimed := h.claimed
  held := h.held
  waits ch d y e i hh hy := by
    obtain ⟨hf, hwait, hnil⟩ := h.waits ch d y e i hh hy
    by_cases hec : e = c
    · subst hec
      rw [update_self]
      exact ⟨hf, hwaits i ⟨ch, d, y, hh, hy⟩ hwait⟩
    · obtain ⟨k, hk, -, -⟩ := h.held ch d y _ hh hy
      obtain ⟨cases, d', hc, -⟩ := select_of_opOf hk
      rw [update_of_ne hec, hm e cases d' hc hec]
      exact ⟨hf, hwait, hnil⟩
  own e cases d he := by
    by_cases hec : e = c
    · subst hec
      rw [update_self]
      exact hown cases d he
    · rw [update_of_ne hec, hm e cases d he hec]
      exact h.own e cases d he

theorem Core.plain (h : Core calls queue fired call slot m hold) {c : C}
    (hc : ∀ cases d, calls c ≠ .select cases d)
    (hm : ∀ e cases d, calls e = .select cases d → e ≠ c → m' e = m e) :
    Core calls queue fired (update call c pc) slot m' hold := by
  refine h.move hm (fun ch side i hw _ => ?_) (fun i hp _ => ?_) fun cases d he => absurd he (hc cases d)
  · obtain ⟨b, hb, -, -⟩ := h.op ch side _ hw
    obtain ⟨cases, d, he, -⟩ := select_of_opOf hb
    exact absurd he (hc cases d)
  · obtain ⟨ch, d, y, hh, hy⟩ := hp
    obtain ⟨b, hb, -, -⟩ := h.held ch d y _ hh hy
    obtain ⟨cases, d', he, -⟩ := select_of_opOf hb
    exact absurd he (hc cases d')

end

/-- A place of a select at which none of its waiters is queued or claimed. -/
def Unlinked (pc : CallPc C V) : Prop :=
  ∀ (c : C) (i : ℕ), ¬LinkedAt pc (.case c i) ∧ ¬WaitsAt pc i

section

omit [DecidableEq H]

theorem Core.leave (h : Core calls queue fired call slot m hold) {c : C}
    (hpc : Unlinked (call c)) (hm : ∀ e cases d, calls e = .select cases d → e ≠ c → m' e = m e)
    (hown : ∀ cases d, calls c = .select cases d →
      SelectOk cases pc (fired c) (fun i => slot (.case c i)) (m' c) (Pending hold c)) :
    Core calls queue fired (update call c pc) slot m' hold := by
  refine h.move hm (fun ch side i _ hl => ?_) (fun i _ hw => ?_) hown
  · exact absurd hl (hpc c i).1
  · exact absurd hw (hpc c i).2

theorem Core.setPark (h : Core calls queue fired call slot m hold) {c : C}
    {f : Option ℕ} (hslot : ∀ e i, e ≠ c → slot' (.case e i) = slot (.case e i))
    (hno : ∀ i, ¬Pending hold c i)
    (hlinked : ∀ ch side i, .case c i ∈ queue ch side → LinkedAt (call c) (.case c i) →
      LinkedAt pc (.case c i) ∧ f ≠ some i)
    (hown : ∀ cases d, calls c = .select cases d →
      SelectOk cases pc f (fun i => slot' (.case c i)) (m c) (Pending hold c)) :
    Core calls queue (update fired c f) (update call c pc) slot' m hold where
  op := h.op
  linked ch side e i hw := by
    have hl := h.linked ch side e i hw
    by_cases hec : e = c
    · subst hec
      rw [update_self]
      exact (hlinked ch side i hw hl).1
    · rw [update_of_ne hec]
      exact hl
  once := h.once
  claimed ch side e i hf hw := by
    by_cases hec : e = c
    · subst hec
      rw [update_self] at hf
      exact (hlinked ch side i hw (h.linked ch side e i hw)).2 hf
    · rw [update_of_ne hec] at hf
      exact h.claimed ch side e i hf hw
  held := h.held
  waits ch d y e i hh hy := by
    have hec : e ≠ c := by
      rintro rfl
      exact hno i ⟨ch, d, y, hh, hy⟩
    rw [update_of_ne hec, update_of_ne hec]
    exact h.waits ch d y e i hh hy
  own e cases d he := by
    by_cases hec : e = c
    · subst hec
      rw [update_self, update_self]
      exact hown cases d he
    · rw [update_of_ne hec, update_of_ne hec]
      have := h.own e cases d he
      simp only [hslot e _ hec]
      exact this

end

end Changes

/-! ## One queue -/

section Queues

variable [DecidableEq H]

def setAt (queue : H → Side → List (Waiter C)) (ch : H) (side : Side) (ws : List (Waiter C)) (ch' : H)
    (side' : Side) : List (Waiter C) :=
  if ch' = ch ∧ side' = side then ws else queue ch' side'

section

omit [DecidableEq C]

theorem setAt_self (ch : H) (side : Side) (ws : List (Waiter C)) : setAt queue ch side ws ch side = ws :=
  if_pos ⟨rfl, rfl⟩

theorem sublist_setAt {ch : H} {side : Side} {ws : List (Waiter C)}
    (hws : ws.Sublist (queue ch side)) (ch' : H) (side' : Side) :
    (setAt queue ch side ws ch' side').Sublist (queue ch' side') := by
  unfold setAt
  split
  next he =>
    obtain ⟨rfl, rfl⟩ := he
    exact hws
  next => exact List.Sublist.refl _

end

theorem Core.push (h : Core calls queue fired call slot m hold) {w : Waiter C} {b : Case H V}
    (hop : opOf calls w = some b)
    (hnew : ∀ c i, w = .case c i → LinkedAt (call c) w ∧ fired c ≠ some i ∧ w ∉ queue b.ch b.op.side) :
    Core calls (setAt queue b.ch b.op.side (queue b.ch b.op.side ++ [w])) fired call slot m hold := by
  -- A waiter of the new queues was there, or is the new one in its place.
  have hmem : ∀ ch side x, x ∈ setAt queue b.ch b.op.side (queue b.ch b.op.side ++ [w]) ch side →
      x ∈ queue ch side ∨ x = w ∧ b.ch = ch ∧ b.op.side = side := by
    intro ch side x hx
    unfold setAt at hx
    split at hx
    next he =>
      obtain ⟨rfl, rfl⟩ := he
      rcases List.mem_append.mp hx with hx | hx
      · exact .inl hx
      · exact .inr ⟨List.mem_singleton.mp hx, rfl, rfl⟩
    next => exact .inl hx
  refine ⟨fun ch side x hx => ?_, fun ch side c i hx => ?_, fun ch side c i => ?_,
    fun ch side c i hf hx => ?_, h.held, h.waits, h.own⟩
  · rcases hmem ch side x hx with hx | ⟨rfl, hch, hside⟩
    · exact h.op ch side x hx
    · exact ⟨b, hop, hch, hside⟩
  · rcases hmem ch side _ hx with hx | ⟨rfl, -, -⟩
    · exact h.linked ch side c i hx
    · exact (hnew c i rfl).1
  · unfold setAt
    split
    · rw [List.count_append]
      by_cases hw : w = .case c i
      · have hzero := List.count_eq_zero.mpr (hnew c i hw).2.2
        rw [hw] at hzero
        rw [hzero, hw]
        simp
      · rw [List.count_singleton, if_neg (by simpa using hw)]
        exact h.once b.ch b.op.side c i
    · exact h.once ch side c i
  · rcases hmem ch side _ hx with hx | ⟨rfl, -, -⟩
    · exact h.claimed ch side c i hf hx
    · exact (hnew c i rfl).2.1 hf

end Queues

end Runloom.Select
