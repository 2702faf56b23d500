import Mathlib.Data.List.DropRight
import Mathlib.Order.MinMax

/-!
# The deadline of a chain of contexts

Model of the `_deadline` field and of the three constructors that set it.
-/

namespace Runloom.Context

open List

/-! ## The least of a list -/

section

variable {τ : Type*} [LinearOrder τ]

instance lawfulOrderMin : Std.LawfulOrderMin τ := .of_le_min_iff (fun _ _ _ => le_min_iff) fun a b => min_choice a b

theorem min?_append_singleton (ds : List τ) (d : τ) :
    (ds ++ [d]).min? = some (match ds.min? with | none => d | some m => if m < d then m else d) := by
  rw [List.min?_eq_some_iff]
  cases hm : ds.min? with
  | none =>
    rw [List.min?_eq_none_iff] at hm
    simp [hm]
  | some m =>
    rw [List.min?_eq_some_iff] at hm
    show (if m < d then m else d) ∈ ds ++ [d] ∧ ∀ b ∈ ds ++ [d], (if m < d then m else d) ≤ b
    by_cases h : m < d
    · rw [if_pos h]
      refine ⟨mem_append_left _ hm.1, fun b hb => ?_⟩
      rcases mem_append.mp hb with hb | hb
      · exact hm.2 b hb
      · exact (mem_singleton.mp hb) ▸ h.le
    · rw [if_neg h]
      refine ⟨by simp, fun b hb => ?_⟩
      rcases mem_append.mp hb with hb | hb
      · exact (not_lt.mp h).trans (hm.2 b hb)
      · exact (mem_singleton.mp hb).ge

theorem min?_append_eq_right_iff (a b : List τ) : (a ++ b).min? = b.min? ↔ ∀ d ∈ a, ∃ e ∈ b, e ≤ d := by
  constructor
  · intro h d hd
    cases hm : (a ++ b).min? with
    | none =>
      rw [List.min?_eq_none_iff, append_eq_nil_iff] at hm
      exact absurd hd (by simp [hm.1])
    | some m =>
      have hb := h.symm.trans hm
      rw [List.min?_eq_some_iff] at hm hb
      exact ⟨m, hb.1, hm.2 d (mem_append_left b hd)⟩
  · intro h
    cases hm : b.min? with
    | none =>
      rw [List.min?_eq_none_iff] at hm
      have ha : a = [] := eq_nil_iff_forall_not_mem.mpr fun d hd => by
        obtain ⟨e, he, -⟩ := h d hd
        exact absurd he (by simp [hm])
      simp [ha, hm]
    | some m =>
      rw [List.min?_eq_some_iff] at hm ⊢
      refine ⟨mem_append_right a hm.1, fun d hd => ?_⟩
      rcases mem_append.mp hd with hd | hd
      · obtain ⟨e, he, hle⟩ := h d hd
        exact (hm.2 e he).trans hle
      · exact hm.2 d hd

def tightest (ds : List τ) : Option τ × Bool :=
  match ds.min? with
  | none => (none, false)
  | some m => (some m, true)

theorem tightest_eq_iff (a b : List τ) : tightest a = tightest b ↔ a.min? = b.min? := by
  unfold tightest
  cases ha : a.min? with
  | none | some m => cases hb : b.min? <;> simp

end

/-! ## Contexts with deadlines -/

/-- A context with what it knows of deadlines. -/
inductive Ctx (τ : Type*) where
  | background
  | cancelCtx (parent : Ctx τ) (deadline : Option τ)

/-- What `WithDeadline` does about the deadline of the new context. -/
inductive Alarm (τ : Type*) where
  | unset
  | past
  | waker (deadline : τ)

/-- One call of a constructor, with the clock that it reads. -/
inductive Link (τ : Type*) where
  | withCancel
  | withDeadline (deadline now : τ)
  | withTimeout (seconds before now : τ)

variable {τ : Type*} [LinearOrder τ] [Add τ]

namespace Ctx

/-- `ctx._deadline` of a `_CancelCtx`. -/
def field : Ctx τ → Option τ
  | background => none
  | cancelCtx _ deadline => deadline

/-- `ctx.deadline()`. -/
def deadline (ctx : Ctx τ) : Option τ × Bool :=
  match ctx.field with
  | none => (none, false)
  | some d => (some d, true)

/-- `WithCancel`. -/
def withCancel (parent : Ctx τ) : Ctx τ × Alarm τ := (cancelCtx parent none, .unset)

/-- `WithDeadline`, with the clock at `now`. -/
def withDeadline (parent : Ctx τ) (given now : τ) : Ctx τ × Alarm τ :=
  let deadline := match parent.field with
    | none => given
    | some d => if d < given then d else given
  (cancelCtx parent (some deadline), if deadline ≤ now then .past else .waker deadline)

/-- `WithTimeout`. -/
def withTimeout (parent : Ctx τ) (seconds before now : τ) : Ctx τ × Alarm τ :=
  parent.withDeadline (before + seconds) now

end Ctx

namespace Link

def apply (parent : Ctx τ) : Link τ → Ctx τ × Alarm τ
  | withCancel => parent.withCancel
  | withDeadline deadline now => parent.withDeadline deadline now
  | withTimeout seconds before now => parent.withTimeout seconds before now

def given : Link τ → Option τ
  | withCancel => none
  | withDeadline deadline _ => some deadline
  | withTimeout seconds before _ => some (before + seconds)

/-- The last context of the chain, the first one on the background. -/
def build (chain : List (Link τ)) : Ctx τ := chain.foldl (fun ctx link => (link.apply ctx).1) .background

@[simp] theorem build_append (chain : List (Link τ)) (link : Link τ) :
    build (chain ++ [link]) = (link.apply (build chain)).1 := by
  simp [build]

def deadlines (chain : List (Link τ)) : List τ := chain.filterMap given

end Link

open Link

/-- The calls up to the last `WithCancel`. -/
def upToCancel (chain : List (Link τ)) : List (Link τ) := chain.rdropWhile fun link => link.given.isSome

/-- The calls after the last `WithCancel`. -/
def sinceCancel (chain : List (Link τ)) : List (Link τ) := chain.rtakeWhile fun link => link.given.isSome

section

omit [LinearOrder τ]

theorem deadlines_append (a b : List (Link τ)) : deadlines (a ++ b) = deadlines a ++ deadlines b :=
  filterMap_append

theorem upToCancel_append_sinceCancel (chain : List (Link τ)) : upToCancel chain ++ sinceCancel chain = chain :=
  rdropWhile_append_rtakeWhile

end

theorem field_apply (parent : Ctx τ) (link : Link τ) : (link.apply parent).1.field = link.given.map fun d =>
      match parent.field with | none => d | some m => if m < d then m else d := by
  cases link with
  | withCancel | withDeadline deadline now | withTimeout seconds before now => rfl

theorem field_build (chain : List (Link τ)) : (build chain).field = (deadlines (sinceCancel chain)).min? := by
  induction chain using List.reverseRecOn with
  | nil => rfl
  | append_singleton chain link ih =>
    rw [build_append, field_apply, ih]
    cases hg : link.given with
    | none =>
      have hs : sinceCancel (chain ++ [link]) = [] := rtakeWhile_concat_neg _ _ _ (by simp [hg])
      rw [hs]
      rfl
    | some d =>
      have hs : sinceCancel (chain ++ [link]) = sinceCancel chain ++ [link] :=
        rtakeWhile_concat_pos _ _ _ (by simp [hg])
      have hd : deadlines [link] = [d] := filterMap_cons_some hg
      rw [hs, deadlines_append, hd, min?_append_singleton]
      rfl

/-- The last context reports the tightest deadline of the chain iff none before the last `WithCancel` is tighter
than all after it. -/
theorem deadline_tightest_iff (chain : List (Link τ)) : (build chain).deadline = tightest (deadlines chain) ↔
      ∀ d ∈ deadlines (upToCancel chain), ∃ e ∈ deadlines (sinceCancel chain), e ≤ d := by
  have hlast : (build chain).deadline = tightest (deadlines (sinceCancel chain)) := by
    unfold Ctx.deadline tightest
    rw [field_build]
  have hall : deadlines chain = deadlines (upToCancel chain) ++ deadlines (sinceCancel chain) := by
    rw [← deadlines_append, upToCancel_append_sinceCancel]
  rw [hlast, hall, eq_comm, tightest_eq_iff, min?_append_eq_right_iff]

/-- A `WithCancel` under a deadline of 5 reports none, and 9 under that one is reported as 9. -/
theorem deadline_lost_below_cancel :
    let lost : List (Link ℤ) := [.withDeadline 5 0, .withCancel]
    let looser : List (Link ℤ) := [.withDeadline 5 0, .withCancel, .withDeadline 9 0]
    ((build lost).deadline = (none, false) ∧ (build lost).deadline ≠ tightest (deadlines lost)) ∧
    ((build looser).deadline = (some 9, true) ∧ tightest (deadlines looser) = (some 5, true)) := by
  decide +kernel

end Runloom.Context
