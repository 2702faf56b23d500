import Runloom.StackPool.Safety

/-!
# The count of live stacks

`runloom_stack_live` goes up in `runloom_stack_acquire` and down in `runloom_stack_release`.  An acquire counts before
it knows whether `mmap` succeeds, and does not take it back; a warm-up releases stacks that it has mapped itself; and
the stack that replaces an arena slice is counted only when it is released.
-/

namespace Runloom.StackPool

open Transition

variable {T : Type*} {s s' : State T} {t : T} {x : Stack} {cap : ℤ} {arena : Bool}

/-- No acquire fails, no warm-up maps a stack, and no fiber grows out of an arena slice. -/
def Balances (arena : Bool) (s : State T) : Action T → Prop
  | .call t (.acquire size carve mapped) =>
    (arena = true ∧ carve = true) ∨ mapped = true ∨ (∃ x ∈ (s.cache t).list, x.size = size) ∨
      ∃ x ∈ s.depot.list, x.size = size
  | .call _ (.warmup _ mapped _ _) => mapped = false
  | .call _ (.growSlice _ mapped) => mapped = false
  | _ => True

instance (arena : Bool) (s : State T) : DecidablePred (Balances arena s)
  | .call _ (.acquire _ _ _) => inferInstanceAs (Decidable (_ ∨ _ ∨ _ ∨ _))
  | .call _ (.warmup _ _ _ _) => inferInstanceAs (Decidable (_ = _))
  | .call _ (.growSlice _ _) => inferInstanceAs (Decidable (_ = _))
  | .call _ (.release _ _ _) => .isTrue trivial
  | .call _ .releaseSlice => .isTrue trivial
  | .call _ (.flush _ _) => .isTrue trivial
  | .call _ (.grow _ _ _) => .isTrue trivial
  | .call _ (.prewarm _ _ _) => .isTrue trivial
  | .prewarm _ _ => .isTrue trivial

theorem flushList_live (l : List Stack) (s : State T) :
    (s.flushList cap l).live = s.live ∧ (s.flushList cap l).out = s.out := by
  induction l generalizing s with
  | nil => exact ⟨rfl, rfl⟩
  | cons x l ih =>
    rw [State.flushList]
    split <;> exact ih _

variable [DecidableEq T]

theorem flush_live (s : State T) (t : T) (keep : ℕ) (cap : ℤ) :
    (s.flush t keep cap).live = s.live ∧ (s.flush t keep cap).out = s.out := by
  rw [State.flush]
  split
  · exact ⟨rfl, rfl⟩
  · exact flushList_live _ _

theorem release_live (s : State T) (t : T) (x : Stack) (sample : Bool) (cap : ℤ) :
    (s.release t x sample cap).live = s.live - 1 ∧ (s.release t x sample cap).out = s.out := by
  simp only [State.release]
  split
  · exact ⟨rfl, rfl⟩
  · split
    · exact flush_live _ _ _ _
    · exact ⟨rfl, rfl⟩

theorem prewarm_live (s : State T) (t : T) (w : Warm) (mapped : Bool) :
    (s.prewarm t w mapped).live = s.live ∧ (s.prewarm t w mapped).out = s.out := by
  simp only [State.prewarm]
  split_ifs <;> exact ⟨rfl, rfl⟩

theorem live_step {a : Action T} (hB : Balances arena s a) (hl : s.live = s.out.length)
    (h : step arena s a = some s') : s'.live = s'.out.length := by
  cases a with
  | prewarm t mapped =>
    obtain ⟨w, -, rfl⟩ := Option.map_eq_some_iff.mp h
    obtain ⟨hlive, hout⟩ := prewarm_live s t w mapped
    rw [hlive, hout, hl]
  | call t c =>
    obtain ⟨-, h⟩ := Option.ite_none_right_eq_some.mp h
    cases c with
    | acquire size carve mapped =>
      simp only [State.call] at h
      split at h <;> cases h
      next => exact hl
      next hc =>
        obtain ⟨hlive, ⟨x, -, hout⟩ | ⟨-, rfl, hcache, hdepot⟩⟩ := acquire_spec s t size mapped
        · rw [hlive, hout, hl, List.length_cons, Int.natCast_succ]
        · obtain hcarve | hm | ⟨x, hx, hsize⟩ | ⟨x, hx, hsize⟩ := hB
          · exact absurd hcarve hc
          · cases hm
          · exact absurd hsize (hcache x hx)
          · exact absurd hsize (hdepot x hx)
    | release x sample cap =>
      obtain ⟨hx, ⟨⟩⟩ := Option.ite_none_right_eq_some.mp h
      obtain ⟨hlive, hout⟩ := release_live { s with out := s.out.erase x } t x sample cap
      have := List.length_erase_add_one hx
      rw [hlive, hout]
      simp only [hl]
      omega
    | releaseSlice =>
      obtain ⟨-, ⟨⟩⟩ := Option.ite_none_right_eq_some.mp h
      exact hl
    | flush keep cap =>
      cases h
      obtain ⟨hlive, hout⟩ := flush_live s t keep cap
      rw [hlive, hout, hl]
    | warmup size mapped sample cap =>
      obtain rfl : mapped = false := hB
      cases h
      exact hl
    | grow x size mapped =>
      obtain ⟨hx, h⟩ := Option.ite_none_right_eq_some.mp h
      split at h <;> cases h
      · have := List.length_erase_add_one hx
        simp only [State.unmap, State.handOut, State.map, List.length_cons, hl]
        omega
      · exact hl
    | growSlice size mapped =>
      obtain rfl : mapped = false := hB
      obtain ⟨-, ⟨⟩⟩ := Option.ite_none_right_eq_some.mp h
      exact hl
    | prewarm size n cap =>
      cases h
      exact hl

theorem stack_live_counts_out (h : (stackPool T arena).ReachableWith (Balances arena) s) :
    s.live = s.out.length ∧ 0 ≤ s.live := by
  have hl : s.live = s.out.length := by
    refine h.invariant (P := fun s => s.live = s.out.length) (fun s hi => ?_) ?_
    · simp [hi.live, hi.out]
    · exact fun s a s' hl hB hs => live_step hB hl hs
  exact ⟨hl, hl ▸ Int.natCast_nonneg _⟩

theorem stack_live_counts_out_grown : ∃ s : State Bool, (stackPool Bool false).ReachableWith (Balances false) s ∧
      s.out = [⟨1, 8192⟩] ∧ s.live = s.out.length ∧ 0 ≤ s.live := by
  obtain ⟨s, hr, hp⟩ := (stackPool Bool false).reachesWith (Balances false) (fun s => s.out = [⟨1, 8192⟩])
    [.call true (.acquire 4096 false true), .call true (.grow ⟨0, 4096⟩ 8192 true)] init_empty (by decide +kernel)
  exact ⟨s, hr, hp, stack_live_counts_out hr⟩

/-- A warm-up before the first fiber makes the count negative. -/
theorem stack_live_negative :
    ∃ s : State Bool, (stackPool Bool false).Reachable s ∧ s.out = [] ∧ s.live = -1 := by
  exact (stackPool Bool false).reaches (fun s => s.out = [] ∧ s.live = -1)
    [.call true (.warmup 4096 true false 1024)] init_empty (by decide +kernel)

end Runloom.StackPool
