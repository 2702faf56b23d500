import Runloom.Linked.Chain

/-!
# Doubly linked chains

A node also says what stands before it, by a value of a type `β`: `start` for the first node, and `after z` for the
node that follows `z`. A list with back pointers takes the null pointer for `start`; one whose nodes hold the address
of the cell that points to them takes that of the head cell.
-/

namespace Runloom.Linked

open List

variable {ν β : Type*}

/-- The nodes of `l`, linked in both directions; `b` is what the first one has before it. -/
def Doubly (next : ν → Option ν) (back : ν → β) (after : ν → β) : β → List ν → Prop
  | _, [] => True
  | b, x :: l => back x = b ∧ next x = l.head? ∧ Doubly next back after (after x) l

variable {next next' : ν → Option ν} {back back' after : ν → β} {b : β} {l : List ν} {x y z : ν}

section

variable (h : Doubly next back after b l)
include h

theorem Doubly.congr (hn : ∀ z ∈ l, next' z = next z)
    (hb : ∀ z ∈ l, back' z = back z) : Doubly next' back' after b l := by
  induction l generalizing b with
  | nil => trivial
  | cons z l ih =>
    obtain ⟨hback, hnext, h⟩ := h
    refine ⟨?_, ?_, ih h (fun w hw => hn w (mem_cons_of_mem z hw)) fun w hw => hb w (mem_cons_of_mem z hw)⟩
    · rw [hb z mem_cons_self, hback]
    · rw [hn z mem_cons_self, hnext]

theorem Doubly.spells : Spells next l := by
  induction l generalizing b with
  | nil => trivial
  | cons x l ih => exact ⟨h.2.1, ih h.2.2⟩

theorem Doubly.push (hx : next' x = l.head?) (hxb : back' x = b)
    (hn : ∀ z ∈ l, next' z = next z) (hhead : ∀ y, l.head? = some y → back' y = after x)
    (hb : ∀ z ∈ l.tail, back' z = back z) : Doubly next' back' after b (x :: l) := by
  refine ⟨hxb, hx, ?_⟩
  cases l with
  | nil => trivial
  | cons y l =>
    obtain ⟨-, hy, h⟩ := h
    refine ⟨hhead y rfl, ?_, h.congr (fun z hz => hn z (mem_cons_of_mem y hz)) hb⟩
    rw [hn y mem_cons_self, hy]

theorem Doubly.first_or_after (hx : x ∈ l) :
    l.head? = some x ∧ back x = b ∨ ∃ z ∈ l, back x = after z ∧ next z = some x := by
  induction l generalizing b with
  | nil => exact absurd hx not_mem_nil
  | cons y l ih =>
    obtain ⟨hback, hnext, h⟩ := h
    rcases mem_cons.mp hx with rfl | hx
    · exact .inl ⟨rfl, hback⟩
    · right
      rcases ih h hx with ⟨hhead, hbx⟩ | ⟨z, hz, hbx, hzx⟩
      · exact ⟨y, mem_cons_self, hbx, hnext.trans hhead⟩
      · exact ⟨z, mem_cons_of_mem y hz, hbx, hzx⟩

theorem Doubly.mem_of_next (hz : z ∈ l) (hx : next z = some x) : x ∈ l ∧ back x = after z := by
  induction l generalizing b with
  | nil => exact absurd hz not_mem_nil
  | cons y l ih =>
    obtain ⟨-, hnext, h⟩ := h
    rcases mem_cons.mp hz with rfl | hz
    · -- The successor of the first node is the head of the rest.
      rw [hnext] at hx
      cases l with
      | nil => cases hx
      | cons w l =>
        cases hx
        exact ⟨mem_cons_of_mem z mem_cons_self, h.1⟩
    · obtain ⟨hmem, hback⟩ := ih h hz
      exact ⟨mem_cons_of_mem y hmem, hback⟩

theorem Doubly.back_of_head (hx : l.head? = some x) : back x = b := by
  cases l with
  | nil => cases hx
  | cons y l =>
    cases hx
    exact h.1

theorem Doubly.next_ne_self (hd : l.Nodup) (hz : z ∈ l) :
    next z ≠ some z := by
  induction l generalizing b with
  | nil => exact absurd hz not_mem_nil
  | cons y l ih =>
    obtain ⟨hyl, hd⟩ := nodup_cons.mp hd
    rcases mem_cons.mp hz with rfl | hz
    · rw [h.2.1]
      exact fun e => hyl (mem_of_mem_head? e)
    · exact ih h.2.2 hd hz

end

variable [DecidableEq ν]

/-- The head pointer once `x` is out: it moves on only if it pointed to `x`. -/
theorem Doubly.head?_erase (h : Doubly next back after b l) :
    (l.erase x).head? = if l.head? = some x then next x else l.head? := by
  cases l with
  | nil => rfl
  | cons y l =>
    by_cases hy : y = x
    · subst hy
      rw [erase_cons_head, List.head?_cons, if_pos rfl]
      exact h.2.1.symm
    · rw [erase_cons_tail (by simpa using hy), List.head?_cons, List.head?_cons, if_neg]
      simpa using hy

/-- The removal of `x`: its neighbours are linked, and no other field of the list changes. -/
theorem Doubly.erase (h : Doubly next back after b l) (hd : l.Nodup) (hx : x ∈ l)
    (hpred : ∀ z ∈ l, next z = some x → next' z = next x)
    (hn : ∀ z ∈ l, z ≠ x → next z ≠ some x → next' z = next z)
    (hsucc : ∀ y, next x = some y → back' y = back x)
    (hb : ∀ z ∈ l, z ≠ x → next x ≠ some z → back' z = back z) :
    Doubly next' back' after b (l.erase x) := by
  induction l generalizing b with
  | nil => trivial
  | cons y l ih =>
    obtain ⟨hyl, hd⟩ := nodup_cons.mp hd
    obtain ⟨hback, hnext, h⟩ := h
    by_cases hyx : y = x
    · subst hyx
      rw [erase_cons_head]
      -- No node of the rest points back to the first one.
      have hne : ∀ z ∈ l, z ≠ y := fun z hz e => hyl (e ▸ hz)
      have hkeep : ∀ z ∈ l, next' z = next z := by
        intro z hz
        apply hn z (mem_cons_of_mem y hz) (hne z hz)
        intro e
        exact hyl (h.mem_of_next hz e).1
      cases l with
      | nil => trivial
      | cons w l =>
        obtain ⟨-, hw, h⟩ := h
        obtain ⟨hwl, -⟩ := nodup_cons.mp hd
        refine ⟨(hsucc w hnext).trans hback, ?_, ?_⟩
        · rw [hkeep w mem_cons_self, hw]
        · apply h.congr (fun z hz => hkeep z (mem_cons_of_mem w hz))
          intro z hz
          have hz' := mem_cons_of_mem w hz
          apply hb z (mem_cons_of_mem y hz') (hne z hz')
          rw [hnext]
          rintro ⟨⟩
          exact hwl hz
    · have hxl : x ∈ l := (mem_cons.mp hx).resolve_left (Ne.symm hyx)
      rw [erase_cons_tail (by simpa using hyx)]
      refine ⟨?_, ?_, ?_⟩
      · rw [hb y mem_cons_self hyx, hback]
        intro e
        exact hyl (h.mem_of_next hxl e).1
      · rw [h.head?_erase]
        split
        next hhead => exact hpred y mem_cons_self (hnext.trans hhead)
        next hhead =>
          rw [hn y mem_cons_self hyx (hnext ▸ hhead), hnext]
      · exact ih h hd hxl (fun z hz => hpred z (mem_cons_of_mem y hz))
          (fun z hz => hn z (mem_cons_of_mem y hz)) fun z hz => hb z (mem_cons_of_mem y hz)

end Runloom.Linked
