import Mathlib.Data.List.Nodup
import Runloom.Context.Model

/-!
# Cancellation reaches every descendant

The invariant says where a context that its cancelled parent has not cancelled yet is kept: in the
frame of a `_cancel` call that will still come to it.  When no such call is in progress there is no
frame left to keep it in.
-/

namespace Runloom.Context

open Transition List
open State (setStack)

variable {T X : Type*} {parent : X → Option X} {s s' : State T X} {t : T}

/-- The context `a` is `x` or one of its ancestors. -/
def Above (parent : X → Option X) : X → X → Prop :=
  Relation.ReflTransGen fun a b => parent b = some a

def Given (parent : X → Option X) (given : List (X × Reason)) (x : X) (r : Reason) : Prop :=
  ∃ a, Above parent a x ∧ (a, r) ∈ given

def Active (s : State T X) (f : Frame X) : Prop :=
  ∃ t, f ∈ s.stack t

/-- The call will come to `x`, a child of `p`. -/
def Pending (p x : X) : Frame X → Prop
  | .cancel y _ _ => y = x
  | .fan y _ _ ks => y = p ∧ x ∈ ks
  | _ => False

/-- The call will take `x` out of the list of its parent `p`. -/
def Leaves (p x : X) : Frame X → Prop
  | .fan y _ remove _ => y = x ∧ remove = true
  | .removeChild q y => q = p ∧ y = x
  | _ => False

/-- The parent of `x` is cancelled, and has no children in its list. -/
def ParentCancelled (parent : X → Option X) (err : X → Option Reason) (x : X) : Prop :=
  ∃ p, parent x = some p ∧ err p ≠ none

def FrameOk (parent : X → Option X) (s : State T X) : Frame X → Prop
  | .construct x => s.born x = true
  | .cancel x r remove =>
    s.born x = true ∧ Given parent s.given x r ∧ (remove = false → ParentCancelled parent s.err x)
  | .fan x r remove ks =>
    s.err x ≠ none ∧ Given parent s.given x r ∧ (∀ k ∈ ks, parent k = some x ∧ s.born k = true) ∧
      (remove = false → ParentCancelled parent s.err x)
  | .removeChild _ x => s.err x ≠ none

structure Inv (parent : X → Option X) (s : State T X) : Prop where
  closed : ∀ x, s.closed x = (s.err x).isSome
  made : ∀ x, s.made x = true → s.born x = true
  unborn : ∀ x, s.born x = false → s.err x = none
  up : ∀ x p, s.born x = true → parent x = some p → s.born p = true
  child : ∀ p x, x ∈ s.children p → parent x = some p ∧ s.born x = true
  nodup : ∀ p, (s.children p).Nodup
  emptied : ∀ p, s.err p ≠ none → s.children p = []
  covered : ∀ x p, s.born x = true → parent x = some p → s.err x = none →
    s.err p = none ∧ x ∈ s.children p ∨ ∃ f, Active s f ∧ Pending p x f
  leaving : ∀ x p, s.err x ≠ none → x ∈ s.children p → ∃ f, Active s f ∧ Leaves p x f
  frames : ∀ f, Active s f → FrameOk parent s f
  reason : ∀ x r, s.err x = some r → Given parent s.given x r

/-! ## Stacks -/

/-- A thread drops the frame `f` and puts the frames `fs` in its place. -/
structure Moved (s s' : State T X) (f : Option (Frame X)) (fs : List (Frame X)) : Prop where
  kept : ∀ g, Active s g → f = some g ∨ Active s' g
  added : ∀ g, Active s' g → g ∈ fs ∨ Active s g
  new : ∀ g ∈ fs, Active s' g

variable {rest : List (Frame X)}

theorem moved_of_stack [DecidableEq T] {f : Frame X} (fs : List (Frame X))
    (h : s.stack t = f :: rest) (h' : s'.stack = update s.stack t (fs ++ rest)) : Moved s s' (some f) fs where
  kept g hg := by
    obtain ⟨u, hu⟩ := hg
    by_cases hut : u = t
    · subst hut
      rw [h] at hu
      rcases mem_cons.mp hu with rfl | hu
      · exact .inl rfl
      · refine .inr ⟨u, ?_⟩
        rw [h', update_self]
        exact mem_append_right fs hu
    · refine .inr ⟨u, ?_⟩
      rw [h', update_of_ne hut]
      exact hu
  added g hg := by
    obtain ⟨u, hu⟩ := hg
    rw [h'] at hu
    by_cases hut : u = t
    · subst hut
      rw [update_self, mem_append] at hu
      rcases hu with hu | hu
      · exact .inl hu
      · refine .inr ⟨u, ?_⟩
        rw [h]
        exact mem_cons_of_mem f hu
    · rw [update_of_ne hut] at hu
      exact .inr ⟨u, hu⟩
  new g hg := by
    refine ⟨t, ?_⟩
    rw [h', update_self]
    exact mem_append_left rest hg

theorem moved_of_empty [DecidableEq T] (fs : List (Frame X)) (h : s.stack t = [])
    (h' : s'.stack = update s.stack t fs) : Moved s s' none fs where
  kept g hg := by
    obtain ⟨u, hu⟩ := hg
    have hut : u ≠ t := by
      rintro rfl
      rw [h] at hu
      cases hu
    refine .inr ⟨u, ?_⟩
    rw [h', update_of_ne hut]
    exact hu
  added g hg := by
    obtain ⟨u, hu⟩ := hg
    rw [h'] at hu
    by_cases hut : u = t
    · subst hut
      rw [update_self] at hu
      exact .inl hu
    · rw [update_of_ne hut] at hu
      exact .inr ⟨u, hu⟩
  new g hg := by
    refine ⟨t, ?_⟩
    rw [h', update_self]
    exact hg

theorem active_head {f : Frame X} (h : s.stack t = f :: rest) :
    Active s f := by
  refine ⟨t, ?_⟩
  rw [h]
  exact mem_cons_self

theorem FrameOk.mono {f : Frame X} (h : FrameOk parent s f) (hborn : ∀ x, s.born x = true → s'.born x = true)
    (herr : ∀ x, s.err x ≠ none → s'.err x ≠ none) (hgiven : ∀ a ∈ s.given, a ∈ s'.given) :
    FrameOk parent s' f := by
  have hparent : ∀ x, ParentCancelled parent s.err x → ParentCancelled parent s'.err x := by
    intro x hx
    obtain ⟨p, hp, hpe⟩ := hx
    exact ⟨p, hp, herr p hpe⟩
  have hreason : ∀ x r, Given parent s.given x r → Given parent s'.given x r := by
    intro x r hx
    obtain ⟨a, ha, hr⟩ := hx
    exact ⟨a, ha, hgiven _ hr⟩
  cases f with
  | construct x => exact hborn x h
  | cancel x r remove => exact ⟨hborn x h.1, hreason x r h.2.1, fun hr => hparent x (h.2.2 hr)⟩
  | fan x r remove ks =>
    refine ⟨herr x h.1, hreason x r h.2.1, ?_, fun hr => hparent x (h.2.2.2 hr)⟩
    exact fun k hk => ⟨(h.2.2.1 k hk).1, hborn k (h.2.2.1 k hk).2⟩
  | removeChild p x => exact herr x h

theorem Inv.restack (hI : Inv parent s) {f : Option (Frame X)} {fs : List (Frame X)}
    (hm : Moved s s' f fs) (hborn : s'.born = s.born)
    (hmade : ∀ x, s'.made x = true → s.born x = true) (herr : s'.err = s.err)
    (hclosed : s'.closed = s.closed) (hchildren : s'.children = s.children)
    (hgiven : ∀ a ∈ s.given, a ∈ s'.given) (hok : ∀ g ∈ fs, FrameOk parent s' g)
    (hpending : ∀ p x g, f = some g → Pending p x g → s.err x = none → ∃ g' ∈ fs, Pending p x g')
    (hleaves : ∀ p x g, f = some g → Leaves p x g → x ∈ s.children p → ∃ g' ∈ fs, Leaves p x g') :
    Inv parent s' where
  closed x := by
    rw [hclosed, herr]
    exact hI.closed x
  made x hx := by
    rw [hborn]
    exact hmade x hx
  unborn x hx := by
    rw [hborn] at hx
    rw [herr]
    exact hI.unborn x hx
  up x p hx hp := by
    rw [hborn] at hx ⊢
    exact hI.up x p hx hp
  child p x hx := by
    rw [hchildren] at hx
    rw [hborn]
    exact hI.child p x hx
  nodup p := by
    rw [hchildren]
    exact hI.nodup p
  emptied p hp := by
    rw [herr] at hp
    rw [hchildren]
    exact hI.emptied p hp
  covered x p hx hp hxe := by
    rw [hborn] at hx
    rw [herr] at hxe ⊢
    rw [hchildren]
    rcases hI.covered x p hx hp hxe with h | ⟨g, hg, hpend⟩
    · exact .inl h
    · rcases hm.kept g hg with hfg | hg'
      · obtain ⟨g', hg', hpend'⟩ := hpending p x g hfg hpend hxe
        exact .inr ⟨g', hm.new g' hg', hpend'⟩
      · exact .inr ⟨g, hg', hpend⟩
  leaving x p hxe hx := by
    rw [herr] at hxe
    rw [hchildren] at hx
    obtain ⟨g, hg, hleave⟩ := hI.leaving x p hxe hx
    rcases hm.kept g hg with hfg | hg'
    · obtain ⟨g', hg', hleave'⟩ := hleaves p x g hfg hleave hx
      exact ⟨g', hm.new g' hg', hleave'⟩
    · exact ⟨g, hg', hleave⟩
  frames g hg := by
    rcases hm.added g hg with hg | hg
    · exact hok g hg
    · apply (hI.frames g hg).mono _ _ hgiven
      · exact fun x hx => hborn ▸ hx
      · exact fun x hx => herr ▸ hx
  reason x r hx := by
    rw [herr] at hx
    obtain ⟨a, ha, hr⟩ := hI.reason x r hx
    exact ⟨a, ha, hgiven _ hr⟩

theorem Inv.init (h : Init s) : Inv parent s where
  closed x := by
    rw [h.closed, h.err]
    rfl
  made x hx := by
    rw [h.made] at hx
    cases hx
  unborn x _ := h.err x
  up x p hx _ := by
    rw [h.born] at hx
    cases hx
  child p x hx := by
    rw [h.children] at hx
    cases hx
  nodup p := by
    rw [h.children]
    exact nodup_nil
  emptied p _ := h.children p
  covered x p hx _ _ := by
    rw [h.born] at hx
    cases hx
  leaving x p hx _ := absurd (h.err x) hx
  frames f hf := by
    obtain ⟨t, hf⟩ := hf
    rw [h.stack] at hf
    cases hf
  reason x r hx := by
    rw [h.err] at hx
    cases hx

/-! ## States without a call of `_cancel` in progress -/

/-- No thread is inside `_cancel`. -/
def Quiet (s : State T X) : Prop :=
  ∀ t, ∀ f ∈ s.stack t, ∃ x, f = .construct x

variable {x : X}

theorem Quiet.not_pending (h : Quiet s) {p : X} : ¬∃ f, Active s f ∧ Pending p x f := by
  rintro ⟨f, ⟨t, hf⟩, hpend⟩
  obtain ⟨y, rfl⟩ := h t f hf
  exact hpend

theorem Quiet.not_leaves (h : Quiet s) {p : X} : ¬∃ f, Active s f ∧ Leaves p x f := by
  rintro ⟨f, ⟨t, hf⟩, hleave⟩
  obtain ⟨y, rfl⟩ := h t f hf
  exact hleave

theorem Inv.err_of_above (hI : Inv parent s) (hq : Quiet s) {a : X} (ha : Above parent a x)
    (hx : s.born x = true) (hae : s.err a ≠ none) : s.err x ≠ none := by
  induction ha with
  | refl => exact hae
  | tail _ hp ih =>
    intro hxe
    rcases hI.covered _ _ hx hp hxe with h | h
    · exact ih (hI.up _ _ hx hp) h.1
    · exact hq.not_pending h

variable [DecidableEq T] [DecidableEq X]

/-! ## Steps -/

section

variable (hI : Inv parent s)
include hI

theorem Inv.join {p : X} (ht : s.stack t = []) (hx : s.born x = false)
    (hp : parent x = some p) (hpb : s.born p = true) (hpe : s.err p = none) :
    Inv parent ({ s with
      born := update s.born x true,
      children := update s.children p (s.children p ++ [x]) }.setStack t [.construct x]) := by
  have hm : Moved s ({ s with
      born := update s.born x true,
      children := update s.children p (s.children p ++ [x]) }.setStack t
        [.construct x]) none [.construct x] := moved_of_empty _ ht rfl
  have hborn : ∀ y, s.born y = true → update s.born x true y = true := by
    intro y hy
    by_cases hyx : y = x
    · rw [hyx, update_self]
    · rw [update_of_ne hyx]
      exact hy
  have hmem : ∀ q y, y ∈ update s.children p (s.children p ++ [x]) q → y ∈ s.children q ∨ q = p ∧ y = x := by
    intro q y hy
    by_cases hqp : q = p
    · subst hqp
      rw [update_self, mem_append] at hy
      rcases hy with hy | hy
      · exact .inl hy
      · exact .inr ⟨rfl, mem_singleton.mp hy⟩
    · rw [update_of_ne hqp] at hy
      exact .inl hy
  have hkeep : ∀ q y, y ∈ s.children q → y ∈ update s.children p (s.children p ++ [x]) q := by
    intro q y hy
    by_cases hqp : q = p
    · subst hqp
      rw [update_self]
      exact mem_append_left _ hy
    · rw [update_of_ne hqp]
      exact hy
  have hxp : x ∉ s.children p := by
    intro h
    rw [(hI.child p x h).2] at hx
    cases hx
  refine ⟨hI.closed, fun y hy => hborn y (hI.made y hy), ?_, ?_, ?_, ?_, ?_, ?_, ?_, ?_, hI.reason⟩
  · intro y hy
    apply hI.unborn
    cases hb : s.born y with
    | false => rfl
    | true =>
      simp only [setStack, hborn y hb] at hy
      cases hy
  · intro y q hy hq
    apply hborn
    by_cases hyx : y = x
    · rw [hyx, hp] at hq
      cases hq
      exact hpb
    · simp only [setStack, update_of_ne hyx] at hy
      exact hI.up y q hy hq
  · intro q y hy
    rcases hmem q y hy with hy | ⟨rfl, rfl⟩
    · exact ⟨(hI.child q y hy).1, hborn y (hI.child q y hy).2⟩
    · exact ⟨hp, update_self ..⟩
  · intro q
    simp only [setStack]
    by_cases hqp : q = p
    · subst hqp
      rw [update_self]
      apply List.Nodup.append (hI.nodup q) (nodup_singleton x)
      intro y hy hyx
      cases mem_singleton.mp hyx
      exact hxp hy
    · rw [update_of_ne hqp]
      exact hI.nodup q
  · intro q hq
    have hqp : q ≠ p := by
      rintro rfl
      exact hq hpe
    simp only [setStack, update_of_ne hqp]
    exact hI.emptied q hq
  · intro y q hy hq hye
    by_cases hyx : y = x
    · left
      rw [hyx, hp] at hq
      cases hq
      refine ⟨hpe, ?_⟩
      rw [hyx]
      simp only [setStack, update_self]
      exact mem_append_right _ (mem_singleton.mpr rfl)
    · simp only [setStack, update_of_ne hyx] at hy
      rcases hI.covered y q hy hq hye with ⟨hqe, hyq⟩ | ⟨f, hf, hpend⟩
      · exact .inl ⟨hqe, hkeep q y hyq⟩
      · rcases hm.kept f hf with h | hf
        · cases h
        · exact .inr ⟨f, hf, hpend⟩
  · intro y q hye hy
    rcases hmem q y hy with hy | ⟨rfl, rfl⟩
    · obtain ⟨f, hf, hleave⟩ := hI.leaving y q hye hy
      rcases hm.kept f hf with h | hf
      · cases h
      · exact ⟨f, hf, hleave⟩
    · -- A context that is not born has not been cancelled.
      exact absurd (hI.unborn y hx) hye
  · intro f hf
    rcases hm.added f hf with hf | hf
    · rw [mem_singleton.mp hf]
      exact update_self ..
    · exact (hI.frames f hf).mono hborn (fun _ h => h) fun _ h => h

theorem Inv.bear {fs : List (Frame X)} (ht : s.stack t = []) (hup : ∀ p, parent x = some p → s.born p = true)
    (hpending : ∀ p, parent x = some p → ∃ g ∈ fs, Pending p x g)
    (hok : ∀ s' : State T X, (∀ y, s.born y = true → s'.born y = true) → s'.born x = true →
      s'.err = s.err → s'.given = s.given → ∀ g ∈ fs, FrameOk parent s' g) :
    Inv parent ({ s with born := update s.born x true }.setStack t fs) := by
  have hm : Moved s ({ s with born := update s.born x true }.setStack t fs) none fs :=
    moved_of_empty _ ht rfl
  have hborn : ∀ y, s.born y = true → update s.born x true y = true := by
    intro y hy
    by_cases hyx : y = x
    · rw [hyx, update_self]
    · rw [update_of_ne hyx]
      exact hy
  refine ⟨hI.closed, fun y hy => hborn y (hI.made y hy), ?_, ?_, ?_, hI.nodup, hI.emptied, ?_, ?_, ?_, hI.reason⟩
  · intro y hy
    apply hI.unborn
    cases hb : s.born y with
    | false => rfl
    | true =>
      simp only [setStack, hborn y hb] at hy
      cases hy
  · intro y q hy hq
    apply hborn
    by_cases hyx : y = x
    · rw [hyx] at hq
      exact hup q hq
    · simp only [setStack, update_of_ne hyx] at hy
      exact hI.up y q hy hq
  · exact fun q y hy => ⟨(hI.child q y hy).1, hborn y (hI.child q y hy).2⟩
  · intro y q hy hq hye
    by_cases hyx : y = x
    · rw [hyx] at hq ⊢
      obtain ⟨g, hg, hpend⟩ := hpending q hq
      exact .inr ⟨g, hm.new g hg, hpend⟩
    · simp only [setStack, update_of_ne hyx] at hy
      rcases hI.covered y q hy hq hye with h | ⟨f, hf, hpend⟩
      · exact .inl h
      · rcases hm.kept f hf with h | hf
        · cases h
        · exact .inr ⟨f, hf, hpend⟩
  · intro y q hye hy
    obtain ⟨f, hf, hleave⟩ := hI.leaving y q hye hy
    rcases hm.kept f hf with h | hf
    · cases h
    · exact ⟨f, hf, hleave⟩
  · intro f hf
    rcases hm.added f hf with hf | hf
    · exact hok ({ s with born := update s.born x true }.setStack t fs) hborn (update_self ..) rfl rfl f hf
    · exact (hI.frames f hf).mono hborn (fun _ h => h) fun _ h => h

theorem Inv.register (ht : s.stack t = []) (hx : s.born x = false)
    (h : s.register t x (parent x) = some s') : Inv parent s' := by
  cases hp : parent x with
  | none =>
    rw [hp] at h
    cases h
    apply hI.bear ht
    · intro p hp'
      rw [hp] at hp'
      cases hp'
    · intro p hp'
      rw [hp] at hp'
      cases hp'
    · intro s' _ hxb _ _ g hg
      rw [mem_singleton.mp hg]
      exact hxb
  | some p =>
    rw [hp] at h
    simp only [State.register] at h
    split at h
    next hmade =>
      have hpb := hI.made p hmade
      split at h <;> cases h
      next hpe => exact hI.join ht hx hp hpb hpe
      next r hpe =>
        have hgiven : Given parent s.given x r := by
          obtain ⟨a, ha, hr⟩ := hI.reason p r hpe
          exact ⟨a, ha.tail hp, hr⟩
        apply hI.bear ht
        · intro q hq
          rw [hp] at hq
          cases hq
          exact hpb
        · exact fun q _ => ⟨_, mem_cons_self, rfl⟩
        · intro s' _ hxb herr hg' g hg
          rcases mem_cons.mp hg with rfl | hg
          · refine ⟨hxb, hg' ▸ hgiven, fun _ => ⟨p, hp, ?_⟩⟩
            rw [herr, show s.err p = some r from hpe]
            nofun
          · rw [mem_singleton.mp hg]
            exact hxb
    next => cases h

theorem Inv.enter {r : Reason} {remove : Bool}
    (ht : s.stack t = .cancel x r remove :: rest) (hx : s.err x = none) :
    Inv parent ({ s with
      err := update s.err x (some r),
      closed := update s.closed x true,
      children := update s.children x [] }.setStack t (.fan x r remove (s.children x) :: rest)) := by
  have hm : Moved s ({ s with
      err := update s.err x (some r),
      closed := update s.closed x true,
      children := update s.children x [] }.setStack t
        (.fan x r remove (s.children x) :: rest)) (some (.cancel x r remove))
      [.fan x r remove (s.children x)] := moved_of_stack _ ht rfl
  obtain ⟨hxb, hgiven, hparent⟩ := hI.frames (.cancel x r remove) (active_head ht)
  have herr : ∀ y, s.err y ≠ none → update s.err x (some r) y ≠ none := by
    intro y hy
    by_cases hyx : y = x
    · rw [hyx, update_self]
      nofun
    · rw [update_of_ne hyx]
      exact hy
  have hmem : ∀ q y, y ∈ update s.children x [] q → q ≠ x ∧ y ∈ s.children q := by
    intro q y hy
    by_cases hqx : q = x
    · rw [hqx, update_self] at hy
      cases hy
    · rw [update_of_ne hqx] at hy
      exact ⟨hqx, hy⟩
  refine ⟨?_, hI.made, ?_, hI.up, ?_, ?_, ?_, ?_, ?_, ?_, ?_⟩
  · intro y
    simp only [setStack]
    by_cases hyx : y = x
    · rw [hyx, update_self, update_self]
      rfl
    · rw [update_of_ne hyx, update_of_ne hyx]
      exact hI.closed y
  · intro y hy
    have hyx : y ≠ x := by
      rintro rfl
      rw [show s.born y = false from hy] at hxb
      cases hxb
    simp only [setStack, update_of_ne hyx]
    exact hI.unborn y hy
  · exact fun q y hy => hI.child q y (hmem q y hy).2
  · intro q
    simp only [setStack]
    by_cases hqx : q = x
    · rw [hqx, update_self]
      exact nodup_nil
    · rw [update_of_ne hqx]
      exact hI.nodup q
  · intro q hq
    simp only [setStack] at hq ⊢
    by_cases hqx : q = x
    · rw [hqx, update_self]
    · rw [update_of_ne hqx] at hq ⊢
      exact hI.emptied q hq
  · intro y q hy hq hye
    simp only [setStack] at hye ⊢
    have hyx : y ≠ x := by
      rintro rfl
      rw [update_self] at hye
      cases hye
    rw [update_of_ne hyx] at hye
    rcases hI.covered y q hy hq hye with ⟨hqe, hyq⟩ | ⟨f, hf, hpend⟩
    · by_cases hqx : q = x
      · -- The list of `x` is now in the frame.
        subst hqx
        exact .inr ⟨_, hm.new _ mem_cons_self, rfl, hyq⟩
      · rw [update_of_ne hqx, update_of_ne hqx]
        exact .inl ⟨hqe, hyq⟩
    · rcases hm.kept f hf with hfe | hf
      · cases hfe
        exact absurd hpend.symm hyx
      · exact .inr ⟨f, hf, hpend⟩
  · intro y q hye hy
    obtain ⟨hqx, hyq⟩ := hmem q y hy
    by_cases hyx : y = x
    · subst hyx
      cases remove with
      | true => exact ⟨_, hm.new _ mem_cons_self, rfl, rfl⟩
      | false =>
        -- The parent is cancelled, so its list is empty.
        obtain ⟨p, hp, hpe⟩ := hparent rfl
        rw [(hI.child q y hyq).1] at hp
        cases hp
        rw [hI.emptied q hpe] at hyq
        cases hyq
    · simp only [setStack, update_of_ne hyx] at hye
      obtain ⟨f, hf, hleave⟩ := hI.leaving y q hye hyq
      rcases hm.kept f hf with hfe | hf
      · cases hfe
        exact hleave.elim
      · exact ⟨f, hf, hleave⟩
  · intro f hf
    rcases hm.added f hf with hf | hf
    · rw [mem_singleton.mp hf]
      refine ⟨?_, hgiven, hI.child x, fun hr => ?_⟩
      · simp only [setStack, update_self]
        nofun
      · obtain ⟨p, hp, hpe⟩ := hparent hr
        exact ⟨p, hp, herr p hpe⟩
    · exact (hI.frames f hf).mono (fun _ h => h) herr fun _ h => h
  · intro y r' hy
    by_cases hyx : y = x
    · subst hyx
      simp only [setStack, update_self] at hy
      cases hy
      exact hgiven
    · simp only [setStack, update_of_ne hyx] at hy
      exact hI.reason y r' hy

theorem Inv.removeChild {p : X} (ht : s.stack t = .removeChild p x :: rest) : Inv parent ({ s with
      children := update s.children p ((s.children p).erase x) }.setStack t rest) := by
  have hm : Moved s ({ s with
      children := update s.children p ((s.children p).erase x) }.setStack t rest)
      (some (.removeChild p x)) [] := moved_of_stack _ ht rfl
  have hxe : s.err x ≠ none :=
    hI.frames (.removeChild p x) (active_head ht)
  have hmem : ∀ q y, y ∈ update s.children p ((s.children p).erase x) q →
      y ∈ s.children q ∧ ¬(q = p ∧ y = x) := by
    intro q y hy
    by_cases hqp : q = p
    · subst hqp
      rw [update_self] at hy
      refine ⟨mem_of_mem_erase hy, ?_⟩
      rintro ⟨-, rfl⟩
      exact (hI.nodup q).not_mem_erase hy
    · rw [update_of_ne hqp] at hy
      exact ⟨hy, fun h => hqp h.1⟩
  refine ⟨hI.closed, hI.made, hI.unborn, hI.up, ?_, ?_, ?_, ?_, ?_, ?_, hI.reason⟩
  · exact fun q y hy => hI.child q y (hmem q y hy).1
  · intro q
    simp only [setStack]
    by_cases hqp : q = p
    · rw [hqp, update_self]
      exact (hI.nodup p).erase x
    · rw [update_of_ne hqp]
      exact hI.nodup q
  · intro q hq
    simp only [setStack]
    by_cases hqp : q = p
    · subst hqp
      rw [update_self, hI.emptied q hq]
      rfl
    · rw [update_of_ne hqp]
      exact hI.emptied q hq
  · intro y q hy hq hye
    rcases hI.covered y q hy hq hye with ⟨hqe, hyq⟩ | ⟨f, hf, hpend⟩
    · refine .inl ⟨hqe, ?_⟩
      have hyx : y ≠ x := by
        rintro rfl
        exact hxe hye
      simp only [setStack]
      by_cases hqp : q = p
      · subst hqp
        rw [update_self]
        exact (mem_erase_of_ne hyx).mpr hyq
      · rw [update_of_ne hqp]
        exact hyq
    · rcases hm.kept f hf with hfe | hf
      · cases hfe
        exact hpend.elim
      · exact .inr ⟨f, hf, hpend⟩
  · intro y q hye hy
    obtain ⟨hyq, hne⟩ := hmem q y hy
    obtain ⟨f, hf, hleave⟩ := hI.leaving y q hye hyq
    rcases hm.kept f hf with hfe | hf
    · cases hfe
      exact absurd ⟨hleave.1.symm, hleave.2.symm⟩ hne
    · exact ⟨f, hf, hleave⟩
  · intro f hf
    rcases hm.added f hf with hf | hf
    · cases hf
    · exact (hI.frames f hf).mono (fun _ h => h) (fun _ h => h) fun _ h => h

theorem Inv.run (h : s.run parent t = some s') : Inv parent s' := by
  unfold State.run at h
  split at h
  next => cases h
  next x rest ht =>
    cases h
    have hxb : s.born x = true := hI.frames (.construct x) (active_head ht)
    refine hI.restack (moved_of_stack [] ht rfl) rfl ?_ rfl rfl rfl (fun _ h => h) nofun ?_ ?_
    · intro y hy
      by_cases hyx : y = x
      · exact hyx ▸ hxb
      · simp only [setStack, update_of_ne hyx] at hy
        exact hI.made y hy
    · intro p y g hg hpend
      cases hg
      exact hpend.elim
    · intro p y g hg hleave
      cases hg
      exact hleave.elim
  next x r remove rest ht =>
    cases h
    cases hx : s.err x with
    | none =>
      simp only [State.enter, hx]
      exact hI.enter ht hx
    | some r' =>
      simp only [State.enter, hx]
      refine hI.restack (moved_of_stack [] ht rfl) rfl hI.made rfl rfl rfl (fun _ h => h) nofun ?_ ?_
      · intro p y g hg hpend hye
        cases hg
        cases hpend
        rw [hx] at hye
        cases hye
      · intro p y g hg hleave
        cases hg
        exact hleave.elim
  next x r remove k ks rest ht =>
    cases h
    obtain ⟨hxe, hgiven, hks, hparent⟩ := hI.frames (.fan x r remove (k :: ks)) (active_head ht)
    obtain ⟨hkp, hkb⟩ := hks k mem_cons_self
    refine hI.restack (moved_of_stack [.cancel k r false, .fan x r remove ks] ht rfl) rfl hI.made
      rfl rfl rfl (fun _ h => h) ?_ ?_ ?_
    · intro g hg
      rcases mem_cons.mp hg with rfl | hg
      · obtain ⟨a, ha, hr⟩ := hgiven
        exact ⟨hkb, ⟨a, ha.tail hkp, hr⟩, fun _ => ⟨x, hkp, hxe⟩⟩
      · rw [mem_singleton.mp hg]
        exact ⟨hxe, hgiven, fun j hj => hks j (mem_cons_of_mem k hj), hparent⟩
    · intro p y g hg hpend _
      cases hg
      obtain ⟨rfl, hy⟩ := hpend
      rcases mem_cons.mp hy with rfl | hy
      · exact ⟨_, mem_cons_self, rfl⟩
      · exact ⟨_, mem_cons_of_mem _ mem_cons_self, rfl, hy⟩
    · intro p y g hg hleave _
      cases hg
      exact ⟨_, mem_cons_of_mem _ mem_cons_self, hleave⟩
  next x r remove rest ht =>
    obtain ⟨hxe, -, -, hparent⟩ := hI.frames (.fan x r remove []) (active_head ht)
    have hnone : ∀ p y g, some (.fan x r remove []) = some g → Pending p y g → s.err y = none →
        ∀ fs : List (Frame X), ∃ g' ∈ fs, Pending p y g' := by
      intro p y g hg hpend
      cases hg
      cases hpend.2
    split at h <;> cases h
    next p hp =>
      refine hI.restack (moved_of_stack [.removeChild p x] ht rfl) rfl hI.made rfl rfl rfl (fun _ h => h) ?_ ?_ ?_
      · intro g hg
        rw [mem_singleton.mp hg]
        exact hxe
      · exact fun q y g hg hpend hye => hnone q y g hg hpend hye _
      · intro q y g hg hleave hy
        cases hg
        obtain ⟨rfl, -⟩ := hleave
        rw [(hI.child q x hy).1] at hp
        cases hp
        exact ⟨_, mem_cons_self, rfl, rfl⟩
    next hne =>
      refine hI.restack (moved_of_stack [] ht rfl) rfl hI.made rfl rfl rfl (fun _ h => h) nofun ?_ ?_
      · exact fun q y g hg hpend hye => hnone q y g hg hpend hye _
      · intro q y g hg hleave hy
        cases hg
        obtain ⟨rfl, rfl⟩ := hleave
        exact (hne q rfl (hI.child q x hy).1).elim
  next p x rest ht =>
    cases h
    exact hI.removeChild ht

theorem Inv.step {a : Action T X} (h : step parent s a = some s') :
    Inv parent s' := by
  cases a with
  | create t x =>
    simp only [Context.step] at h
    split at h
    next hg => exact hI.register hg.1 hg.2 h
    next => cases h
  | cancel t x r =>
    simp only [Context.step] at h
    split at h <;> cases h
    next hg =>
      refine hI.restack (moved_of_empty [.cancel x r true] hg.1 rfl) rfl hI.made rfl rfl rfl
        (fun _ h => mem_append_left _ h) ?_ nofun nofun
      · intro g hg'
        rw [mem_singleton.mp hg']
        refine ⟨hI.made x hg.2, ⟨x, .refl, ?_⟩, nofun⟩
        exact mem_append_right _ mem_cons_self
  | run t => exact hI.run h

end

theorem inv_of_reachable (h : (contexts (T := T) parent).Reachable s) : Inv parent s :=
  h.invariant (fun _ => Inv.init) fun _ _ _ hI _ hs => hI.step hs

/-! ## Runs -/

theorem err_of_step {a : Action T X} {r : Reason} (hx : s.err x = some r)
    (h : step parent s a = some s') : s'.err x = some r := by
  cases a with
  | create t y =>
    simp only [step] at h
    split at h
    · unfold State.register at h
      split at h
      next =>
        cases h
        exact hx
      next p =>
        split at h
        · dsimp only at h
          split at h <;> cases h <;> exact hx
        · cases h
    · cases h
  | cancel t y r' =>
    simp only [step] at h
    split at h <;> cases h
    exact hx
  | run t =>
    simp only [step, State.run] at h
    split at h
    next => cases h
    next =>
      cases h
      exact hx
    next y r' remove rest _ =>
      cases h
      cases hy : s.err y with
      | some _ =>
        simp only [State.enter, hy]
        exact hx
      | none =>
        have hxy : x ≠ y := by
          rintro rfl
          rw [hx] at hy
          cases hy
        simp only [State.enter, hy, setStack, update_of_ne hxy]
        exact hx
    next =>
      cases h
      exact hx
    next =>
      split at h <;> cases h <;> exact hx
    next =>
      cases h
      exact hx

/-- A context is cancelled once; when no `_cancel` call is in progress, every context below a cancelled one is
cancelled. -/
theorem cancel_reaches_descendants (h : (contexts (T := T) parent).Reachable s) :
    (∀ x r as s', s.err x = some r → (contexts parent).run s as = some s' → s'.err x = some r) ∧
    (∀ x, s.closed x = true ↔ s.err x ≠ none) ∧
    (Quiet s → (∀ a x, Relation.TransGen (fun p c => parent c = some p) a x → s.made x = true →
        s.err a ≠ none → ∃ r, s.err x = some r ∧ Given parent s.given x r) ∧
      ∀ x p, s.err x ≠ none → x ∉ s.children p) := by
  have hI := inv_of_reachable h
  refine ⟨?_, ?_, fun hq => ⟨?_, ?_⟩⟩
  · intro x r as s' hx hrun
    apply System.run_invariant (P := fun s => s.err x = some r) _ hx hrun
    exact fun _ _ _ hx hs => err_of_step hx hs
  · intro x
    rw [hI.closed, Option.isSome_iff_ne_none]
  · intro a x ha hx hae
    have hxe := hI.err_of_above hq ha.to_reflTransGen (hI.made x hx) hae
    obtain ⟨r, hr⟩ := Option.ne_none_iff_exists'.mp hxe
    exact ⟨r, hr, hI.reason x r hr⟩
  · intro x p hx hmem
    exact hq.not_leaves (hI.leaving x p hx hmem)

/-- Two threads cancel the root and its child; the grandchild gets the reason that came first. -/
theorem cancel_reaches_descendants_twice : ∃ s : State (Fin 2) (Fin 3),
      (contexts fun x => if x = 1 then some 0 else if x = 2 then some 1 else none).Reachable s ∧
      s.err 2 = some .deadlineExceeded ∧ s.err 0 = some .cancelled ∧ s.closed 2 = true ∧
      2 ∉ s.children 1 := by
  obtain ⟨s, hr, h0, h1, hmade, herr1, herr0, herr2⟩ := (contexts (T := Fin 2) fun x : Fin 3 =>
      if x = 1 then some 0 else if x = 2 then some 1 else none).reaches
    (fun s => s.stack 0 = [] ∧ s.stack 1 = [] ∧ s.made 2 = true ∧
      s.err 1 = some .deadlineExceeded ∧ s.err 0 = some .cancelled ∧
      s.err 2 = some .deadlineExceeded)
    [.create 0 0, .run 0, .create 0 1, .run 0, .create 0 2, .run 0, .cancel 0 0 .cancelled, .run 0,
      .cancel 1 1 .deadlineExceeded, .run 1, .run 0, .run 0, .run 0, .run 1, .run 1, .run 1, .run 1,
      .run 1]
    ⟨fun _ => rfl, fun _ => rfl, fun _ => rfl, fun _ => rfl, fun _ => rfl, fun _ => rfl, rfl⟩
    (s := ⟨fun _ => false, fun _ => false, fun _ => none, fun _ => false, fun _ => [], fun _ => [],
      []⟩) (by decide +kernel)
  obtain ⟨-, hclosed, hquiet⟩ := cancel_reaches_descendants hr
  have hq : Quiet s := by
    intro t f hf
    match t with
    | 0 =>
      rw [h0] at hf
      cases hf
    | 1 =>
      rw [h1] at hf
      cases hf
  obtain ⟨hdown, hout⟩ := hquiet hq
  have hne : s.err 1 ≠ none := by
    rw [herr1]
    nofun
  obtain ⟨r, hr2, -⟩ := hdown 1 2 (.single rfl) hmade hne
  have hne2 : s.err 2 ≠ none := by
    rw [hr2]
    nofun
  exact ⟨s, hr, herr2, herr0, (hclosed 2).mpr hne2, hout 2 1 hne2⟩

end Runloom.Context
