import Mathlib.Data.BitVec
import Runloom.Ring
import Runloom.Transition.History

/-!
# The ready ring of a scheduler

Model of `runloom_sched_ready_push` and `runloom_sched_ready_pop` with the growth of the ring and the picks of the PCT
scheduler.  The ring belongs to the thread of its scheduler, so that a call is one step.  The positions are
free-running counters of 64 bits that start again at each growth; they are natural numbers here.
-/

namespace Runloom.ReadyRing

open Transition

/-- `pctPrio` and `pctFifo` are fields of the fibers. -/
structure Ring (F : Type*) where
  ring : ℕ → Option F
  cap : ℕ
  mask : ℕ
  head : ℕ
  tail : ℕ

/-- `runloom_pct_t`, without `inited`, and the fields of the fibers that it reads. -/
structure Pct (F : Type*) where
  enabled : Bool
  rng : BitVec 64
  depth : ℤ
  steps : ℤ
  changeAt : ℕ → ℤ
  nextChange : ℕ
  loCtr : ℤ
  prio : F → ℤ
  fifo : F → Bool

structure State (F : Type*) where
  ring : Ring F
  pct : Pct F

variable {F : Type*}

namespace Ring

def slot (r : Ring F) (p : ℕ) : ℕ := p &&& r.mask

def get (r : Ring F) (p : ℕ) : Option F := r.ring (r.slot p)

def set (r : Ring F) (p : ℕ) (x : Option F) : Ring F := { r with ring := update r.ring (r.slot p) x }

/-- The copy loop of the growth, from entry `i` on, with `n` entries to go. -/
def copy (r : Ring F) (newRing : ℕ → Option F) (i : ℕ) : ℕ → ℕ → Option F
  | 0 => newRing
  | n + 1 => r.copy (update newRing i (r.get (r.head + i))) (i + 1) n

/-- `runloom_ready_grow`. -/
def grow (r : Ring F) : Ring F :=
  let newCap := if r.cap = 0 then 64 else r.cap * 2
  { ring := r.copy (fun _ => none) 0 (r.tail - r.head)
    cap := newCap
    mask := newCap - 1
    head := 0
    tail := r.tail - r.head }

/-- `runloom_sched_ready_push`. -/
def push (r : Ring F) (g : F) : Ring F :=
  let r := if r.cap ≤ r.tail - r.head then r.grow else r
  { r.set r.tail (some g) with tail := r.tail + 1 }

/-- The loop that closes the gap at `p`, with `n` entries behind it. -/
def shift (r : Ring F) (p : ℕ) : ℕ → Ring F
  | 0 => r
  | n + 1 => (r.set p (r.get (p + 1))).shift (p + 1) n

end Ring

namespace Pct

/-- `runloom_pct_rand`. -/
def rand (t : Pct F) : BitVec 64 × Pct F :=
  let x := t.rng
  let x := x ^^^ x <<< 13
  let x := x ^^^ x >>> 7
  let x := x ^^^ x <<< 17
  (x, { t with rng := x })

variable [DecidableEq F]

def assign (t : Pct F) (g : F) : Pct F :=
  if t.prio g = 0 then
    let (x, t) := t.rand
    { t with prio := update t.prio g (0x40000000 + ((x &&& 0x3FFFFFFF).toNat : ℤ)) }
  else t

/-- The loop of `runloom_pct_argmax` from the position `p` on. -/
def argmaxFrom (r : Ring F) (t : Pct F) (p best : ℕ) (bestPrio : ℤ) (seenFifo : Bool) : ℕ → ℕ × Pct F
  | 0 => (best, t)
  | n + 1 =>
    match r.get p with
    | none => argmaxFrom r t (p + 1) best bestPrio seenFifo n
    | some cg =>
      if t.fifo cg && seenFifo then argmaxFrom r t (p + 1) best bestPrio seenFifo n
      else
        let t := t.assign cg
        if bestPrio < t.prio cg then argmaxFrom r t (p + 1) p (t.prio cg) (seenFifo || t.fifo cg) n
        else argmaxFrom r t (p + 1) best bestPrio (seenFifo || t.fifo cg) n

/-- `runloom_pct_argmax`. -/
def argmax (r : Ring F) (t : Pct F) : ℕ × Pct F :=
  argmaxFrom r t r.head r.head (-2147483647 - 1) false (r.tail - r.head)

def demote (r : Ring F) (t : Pct F) (best : ℕ) : Pct F :=
  let t := { t with loCtr := t.loCtr + 1, nextChange := t.nextChange + 1 }
  match r.get best with
  | some g => { t with prio := update t.prio g (-t.loCtr) }
  | none => t

/-- At a change point the winner is demoted and the choice made again. -/
def choose (r : Ring F) (t : Pct F) : ℕ × Pct F :=
  let t := { t with steps := t.steps + 1 }
  let (best, t) := argmax r t
  if (t.nextChange : ℤ) < t.depth - 1 ∧ t.steps = t.changeAt t.nextChange then argmax r (t.demote r best)
  else (best, t)

end Pct

namespace State

def push (s : State F) (g : F) : State F := { s with ring := s.ring.push g }

variable [DecidableEq F]

/-- `runloom_pct_pick`. -/
def pctPick (s : State F) : Option F × State F :=
  let (best, t) := Pct.choose s.ring s.pct
  let g := s.ring.get best
  let r := s.ring.shift best (s.ring.tail - (best + 1))
  (g, { ring := { r with tail := r.tail - 1 }, pct := t })

/-- `runloom_sched_ready_pop`: `none` for NULL. -/
def pop (s : State F) : Option F × State F :=
  if s.ring.head = s.ring.tail then (none, s)
  else if s.pct.enabled then s.pctPick
  else (s.ring.get s.ring.head, { s with ring := { s.ring with head := s.ring.head + 1 } })

end State

/-- `setFiber` is what the rest of the program writes to the PCT fields of a fiber. -/
inductive Call (F : Type*) where
  | push (g : F)
  | pop
  | setFiber (g : F) (prio : ℤ) (fifo : Bool)

variable [DecidableEq F]

def step (s : State F) : Call F → Option (State F)
  | .push g => some (s.push g)
  | .pop => some s.pop.2
  | .setFiber g prio fifo =>
    some { s with pct := { s.pct with
      prio := update s.pct.prio g prio
      fifo := update s.pct.fifo g fifo } }

/-- A ring that was not used yet; the seed and the change points may be any. -/
structure Init (s : State F) : Prop where
  cap : s.ring.cap = 0
  head : s.ring.head = 0
  tail : s.ring.tail = 0

def system : System (State F) (Call F) where
  init := Init
  step := step

end Runloom.ReadyRing

/-!
## The ready ring is a queue

`Holds r q` says that the ring `r` spells the queue `q`.  A growth spells the same queue from position 0 on, a push
appends, a pop takes the first, and a pick of the PCT scheduler takes one entry out of the middle.
-/

namespace Runloom.ReadyRing

open Transition List

variable {F : Type*} {r : Ring F} {q : List F} {g : F}

/-! ## The ring -/

namespace Ring

/-- The ring has no slots yet, or a power of two of them with their mask. -/
def Sized (r : Ring F) : Prop := r.cap = 0 ∨ ∃ k, r.cap = 2 ^ k ∧ r.mask = 2 ^ k - 1

theorem Sized.slot_eq (h : r.Sized) (hpos : 0 < r.cap) (p : ℕ) : r.slot p = p % r.cap := by
  obtain h0 | ⟨k, hcap, hmask⟩ := h
  · omega
  · rw [slot, hmask, hcap, Nat.and_two_pow_sub_one_eq_mod]

theorem Sized.slot_ne (h : r.Sized) {a b : ℕ} (hab : a < b) (hb : b < a + r.cap) : r.slot a ≠ r.slot b := by
  intro heq
  rw [h.slot_eq (by omega), h.slot_eq (by omega)] at heq
  have heq' : (a + 0) % r.cap = (a + (b - a)) % r.cap := by
    rw [Nat.add_zero, Nat.add_sub_cancel' hab.le, heq]
  have hz := Runloom.Ring.slot_inj (by omega) (by omega) heq'
  omega

@[simp]
theorem get_set_self (r : Ring F) (p : ℕ) (x : Option F) : (r.set p x).get p = x :=
  update_self ..

theorem get_set_of_ne {p a : ℕ} {x : Option F} (h : r.slot a ≠ r.slot p) : (r.set p x).get a = r.get a :=
  update_of_ne h ..

end Ring

/-- The ring spells the queue `q`, the oldest entry first. -/
structure Holds (r : Ring F) (q : List F) : Prop where
  sized : r.Sized
  room : q.length ≤ r.cap
  tail : r.tail = r.head + q.length
  get (i : ℕ) (hi : i < q.length) : r.get (r.head + i) = q[i]?

/-- The queue as the slots between `head` and `tail`. -/
def Ring.queued (r : Ring F) : List (Option F) := (List.range (r.tail - r.head)).map fun i => r.get (r.head + i)

namespace Holds

theorem queued_eq (h : Holds r q) : r.queued = q.map some := by
  apply ext_getElem
  · simp only [Ring.queued, length_map, length_range, h.tail]
    omega
  · intro i hi _
    have hlt : i < q.length := by
      simp only [Ring.queued, length_map, length_range, h.tail] at hi
      omega
    simp only [Ring.queued, getElem_map, getElem_range]
    rw [h.get i hlt, List.getElem?_eq_getElem hlt]

theorem of_empty (hcap : r.cap = 0) (hhead : r.head = 0) (htail : r.tail = 0) : Holds r [] where
  sized := .inl hcap
  room := by simp
  tail := by rw [hhead, htail]; rfl
  get i hi := by simp at hi

theorem copy_apply (r : Ring F) (new : ℕ → Option F) (i n j : ℕ) :
    r.copy new i n j = if i ≤ j ∧ j < i + n then r.get (r.head + j) else new j := by
  induction n generalizing new i with
  | zero =>
    rw [if_neg (by omega)]
    rfl
  | succ n ih =>
    rw [Ring.copy, ih]
    by_cases hij : j = i
    · subst hij
      rw [if_neg (by omega), if_pos (by omega), update_self]
    · rw [update_of_ne hij]
      by_cases hj : i + 1 ≤ j ∧ j < i + 1 + n
      · rw [if_pos hj, if_pos (by omega)]
      · rw [if_neg hj, if_neg (by omega)]

theorem grow (h : Holds r q) : Holds r.grow q ∧ q.length < r.grow.cap := by
  have hsized : r.grow.Sized := by
    right
    obtain h0 | ⟨k, hcap, -⟩ := h.sized
    · exact ⟨6, by simp [Ring.grow, h0], by simp [Ring.grow, h0]⟩
    · have hne : r.cap ≠ 0 := by
        rw [hcap]
        exact (Nat.two_pow_pos k).ne'
      exact ⟨k + 1, by simp [Ring.grow, hcap, pow_succ], by simp [Ring.grow, hcap, pow_succ]⟩
  have hroom : q.length < r.grow.cap := by
    have := h.room
    simp only [Ring.grow]
    split <;> omega
  refine ⟨⟨hsized, hroom.le, ?_, fun i hi => ?_⟩, hroom⟩
  · simp only [Ring.grow, h.tail]
    omega
  · have hslot : r.grow.slot (r.grow.head + i) = i := by
      rw [hsized.slot_eq (by omega), Nat.mod_eq_of_lt]
      · exact Nat.zero_add i
      · simp only [Ring.grow] at hroom ⊢
        omega
    rw [Ring.get, hslot]
    simp only [Ring.grow, copy_apply]
    rw [if_pos (by rw [h.tail]; omega), h.get i hi]

theorem store (h : Holds r q) (hlt : q.length < r.cap) :
    Holds { r.set r.tail (some g) with tail := r.tail + 1 } (q ++ [g]) where
  sized := h.sized
  room := by
    rw [length_append, length_singleton]
    exact hlt
  tail := by
    simp only [h.tail, length_append, length_singleton]
    rfl
  get i hi := by
    show (r.set r.tail (some g)).get (r.head + i) = _
    rw [length_append, length_singleton] at hi
    by_cases hlast : i = q.length
    · subst hlast
      rw [← h.tail, Ring.get_set_self]
      simp
    · have hold : i < q.length := by omega
      have hne := h.sized.slot_ne (a := r.head + i) (b := r.tail) (by rw [h.tail]; omega) (by rw [h.tail]; omega)
      rw [Ring.get_set_of_ne hne, h.get i hold, List.getElem?_append_left hold]

theorem push (h : Holds r q) (g : F) : Holds (r.push g) (q ++ [g]) := by
  have hlen : r.tail - r.head = q.length := by
    rw [h.tail]
    omega
  rw [Ring.push]
  by_cases hfull : r.cap ≤ r.tail - r.head
  · rw [if_pos hfull]
    obtain ⟨hgrown, hlt⟩ := h.grow
    exact hgrown.store hlt
  · rw [if_neg hfull]
    exact h.store (by omega)

theorem first (h : Holds r (g :: q)) : r.get r.head = some g := by
  simpa using h.get 0 (by simp)

theorem pop (h : Holds r (g :: q)) : Holds { r with head := r.head + 1 } q where
  sized := h.sized
  room := by
    have := h.room
    simp only [length_cons] at this
    show q.length ≤ r.cap
    omega
  tail := by
    show r.tail = r.head + 1 + q.length
    rw [h.tail, length_cons]
    omega
  get i hi := by
    show r.get (r.head + 1 + i) = _
    rw [Nat.add_right_comm, Nat.add_assoc, h.get (i + 1) (by simpa using hi), List.getElem?_cons_succ]

end Holds

theorem Ring.shift_fields (r : Ring F) (p n : ℕ) :
    (r.shift p n).head = r.head ∧ (r.shift p n).tail = r.tail ∧ (r.shift p n).cap = r.cap ∧
      (r.shift p n).mask = r.mask := by
  induction n generalizing r p with
  | zero => exact ⟨rfl, rfl, rfl, rfl⟩
  | succ n ih => exact ih (r.set p (r.get (p + 1))) (p + 1)

theorem Ring.get_shift (hs : r.Sized) {b p n : ℕ} (hp : b ≤ p) (hn : p + n < b + r.cap) {a : ℕ} (ha : b ≤ a)
    (hab : a < b + r.cap) :
    (r.shift p n).get a = if p ≤ a ∧ a < p + n then r.get (a + 1) else r.get a := by
  induction n generalizing r p with
  | zero =>
    rw [if_neg (by omega)]
    rfl
  | succ n ih =>
    -- the first store changes the slot of `p` only, which the rest of the loop does not read
    have hset : ∀ c, b ≤ c → c < b + r.cap → c ≠ p → (r.set p (r.get (p + 1))).get c = r.get c := by
      intro c hc hcb hcp
      apply Ring.get_set_of_ne
      rcases Nat.lt_or_gt_of_ne hcp with hlt | hgt
      · exact hs.slot_ne hlt (by omega)
      · exact (hs.slot_ne hgt (by omega)).symm
    have hcap : (r.set p (r.get (p + 1))).cap = r.cap := rfl
    rw [Ring.shift, ih (r := r.set p (r.get (p + 1))) hs (by omega) (by rw [hcap]; omega) hab]
    by_cases hap : a = p
    · subst hap
      rw [if_neg (by omega), if_pos (by omega), Ring.get_set_self]
    · by_cases hin : p + 1 ≤ a ∧ a < p + 1 + n
      · rw [if_pos hin, if_pos (by omega), hset (a + 1) (by omega) (by omega) (by omega)]
      · rw [if_neg hin, if_neg (by omega), hset a ha hab hap]

theorem Holds.remove (h : Holds r q) {i : ℕ} (hi : i < q.length) :
    Holds { r.shift (r.head + i) (r.tail - (r.head + i + 1)) with
      tail := (r.shift (r.head + i) (r.tail - (r.head + i + 1))).tail - 1 } (q.eraseIdx i) where
  sized := by
    obtain ⟨-, -, hcap, hmask⟩ := r.shift_fields (r.head + i) (r.tail - (r.head + i + 1))
    simp only [Ring.Sized, hcap, hmask]
    exact h.sized
  room := by
    obtain ⟨-, -, hcap, -⟩ := r.shift_fields (r.head + i) (r.tail - (r.head + i + 1))
    rw [length_eraseIdx_of_lt hi, hcap]
    have := h.room
    omega
  tail := by
    obtain ⟨hhead, htail, -, -⟩ := r.shift_fields (r.head + i) (r.tail - (r.head + i + 1))
    show (r.shift (r.head + i) (r.tail - (r.head + i + 1))).tail - 1 =
      (r.shift (r.head + i) (r.tail - (r.head + i + 1))).head + (q.eraseIdx i).length
    rw [hhead, htail, length_eraseIdx_of_lt hi, h.tail]
    omega
  get j hj := by
    rw [length_eraseIdx_of_lt hi] at hj
    have hroom := h.room
    have htail := h.tail
    obtain ⟨hhead, -, -, -⟩ := r.shift_fields (r.head + i) (r.tail - (r.head + i + 1))
    show (r.shift (r.head + i) (r.tail - (r.head + i + 1))).get
      ((r.shift (r.head + i) (r.tail - (r.head + i + 1))).head + j) = _
    rw [hhead, Ring.get_shift h.sized (Nat.le_add_right r.head i) (by omega) (Nat.le_add_right r.head j) (by omega)]
    by_cases hji : j < i
    · rw [if_neg (by omega), h.get j (by omega), List.getElem?_eraseIdx_of_lt hji]
    · rw [if_pos (by omega), Nat.add_assoc, h.get (j + 1) (by omega), List.getElem?_eraseIdx_of_ge (by omega)]

/-! ## The choice of the PCT scheduler -/

/-- Entry `i` may be picked: when it is marked `pctFifo`, no entry before it is. -/
def Candidate (fifo : F → Bool) (q : List F) (i : ℕ) : Prop :=
  ∃ hi : i < q.length, fifo (q[i]) = true → ∀ j (hj : j < i), fifo (q[j]) = false

namespace Pct

variable {t : Pct F}

@[simp]
theorem demote_fifo [DecidableEq F] (r : Ring F) (t : Pct F) (best : ℕ) : (t.demote r best).fifo = t.fifo := by
  unfold demote
  cases r.get best <;> rfl

@[simp]
theorem demote_enabled [DecidableEq F] (r : Ring F) (t : Pct F) (best : ℕ) :
    (t.demote r best).enabled = t.enabled := by
  unfold demote
  cases r.get best <;> rfl

variable [DecidableEq F]

@[simp]
theorem assign_fifo (t : Pct F) (g : F) : (t.assign g).fifo = t.fifo := by
  unfold assign
  split <;> rfl

@[simp]
theorem assign_enabled (t : Pct F) (g : F) : (t.assign g).enabled = t.enabled := by
  unfold assign
  split <;> rfl

theorem argmaxFrom_spec (h : Holds r q) {k best n : ℕ} {bestPrio : ℤ} {seenFifo : Bool}
    (hn : k + n = q.length) (hbest : ∃ i, best = r.head + i ∧ Candidate t.fifo q i)
    (hseen : seenFifo = false → ∀ j (hj : j < q.length), j < k → t.fifo (q[j]) = false) :
    (∃ i, (argmaxFrom r t (r.head + k) best bestPrio seenFifo n).1 = r.head + i ∧ Candidate t.fifo q i) ∧
      (argmaxFrom r t (r.head + k) best bestPrio seenFifo n).2.fifo = t.fifo ∧
      (argmaxFrom r t (r.head + k) best bestPrio seenFifo n).2.enabled = t.enabled := by
  induction n generalizing k best bestPrio seenFifo t with
  | zero => exact ⟨hbest, rfl, rfl⟩
  | succ n ih =>
    have hk : k < q.length := by omega
    have hget : r.get (r.head + k) = some (q[k]) := by rw [h.get k hk, List.getElem?_eq_getElem hk]
    rw [argmaxFrom, hget]
    simp only [Nat.add_assoc]
    split
    · -- a younger fiber of the queue that must stay in order
      rename_i hskip
      rw [Bool.and_eq_true] at hskip
      refine ih (by omega) hbest fun hf => ?_
      rw [hskip.2] at hf
      cases hf
    · rename_i htake
      have hmarks : (t.assign (q[k])).fifo = t.fifo := assign_fifo t _
      have hcand : Candidate t.fifo q k := by
        refine ⟨hk, fun hf j hj => ?_⟩
        refine hseen ?_ j (by omega) hj
        cases hs : seenFifo with
        | false => rfl
        | true => simp [hf, hs] at htake
      have hseen' : (seenFifo || (t.assign (q[k])).fifo (q[k])) = false →
          ∀ j (hj : j < q.length), j < k + 1 → (t.assign (q[k])).fifo (q[j]) = false := by
        intro hf j hj hjk
        rw [hmarks] at hf ⊢
        rw [Bool.or_eq_false_iff] at hf
        rcases Nat.lt_succ_iff_lt_or_eq.mp hjk with hlt | rfl
        · exact hseen hf.1 j hj hlt
        · exact hf.2
      have hlen : k + 1 + n = q.length := by omega
      split
      · have := @ih (t.assign (q[k])) (k + 1) (r.head + k) ((t.assign (q[k])).prio (q[k])) _ hlen
          ⟨k, rfl, by rwa [hmarks]⟩ hseen'
        simp only [hmarks, assign_enabled] at this ⊢
        exact this
      · have := @ih (t.assign (q[k])) (k + 1) best bestPrio _ hlen (by rwa [hmarks]) hseen'
        simp only [hmarks, assign_enabled] at this ⊢
        exact this

theorem argmax_spec (h : Holds r q) (hq : q ≠ []) (t : Pct F) :
    (∃ i, (argmax r t).1 = r.head + i ∧ Candidate t.fifo q i) ∧ (argmax r t).2.fifo = t.fifo ∧
      (argmax r t).2.enabled = t.enabled := by
  have hpos : 0 < q.length := length_pos_iff.mpr hq
  have hlen : r.tail - r.head = 0 + q.length := by
    rw [h.tail]
    omega
  have hfirst : Candidate t.fifo q 0 := ⟨hpos, fun _ j hj => absurd hj (Nat.not_lt_zero j)⟩
  exact argmaxFrom_spec (t := t) (k := 0) (n := r.tail - r.head) h (by omega) ⟨0, rfl, hfirst⟩
    fun _ j _ hj => absurd hj (Nat.not_lt_zero j)

theorem choose_spec (h : Holds r q) (hq : q ≠ []) (t : Pct F) :
    (∃ i, (choose r t).1 = r.head + i ∧ Candidate t.fifo q i) ∧ (choose r t).2.fifo = t.fifo ∧
      (choose r t).2.enabled = t.enabled := by
  have hone := argmax_spec h hq { t with steps := t.steps + 1 }
  simp only [choose]
  split
  · have htwo := argmax_spec h hq ((argmax r { t with steps := t.steps + 1 }).2.demote r
      (argmax r { t with steps := t.steps + 1 }).1)
    rw [demote_fifo, demote_enabled, hone.2.1, hone.2.2] at htwo
    exact htwo
  · exact hone

end Pct

/-! ## The calls -/

variable [DecidableEq F] {s : State F}

theorem pctPick_spec (h : Holds s.ring q) (hq : q ≠ []) :
    ∃ i, ∃ hi : i < q.length, Candidate s.pct.fifo q i ∧ s.pctPick.1 = some (q[i]) ∧
      Holds s.pctPick.2.ring (q.eraseIdx i) ∧ s.pctPick.2.pct.enabled = s.pct.enabled := by
  obtain ⟨⟨i, hbest, hcand⟩, -, hen⟩ := Pct.choose_spec h hq s.pct
  have hi : i < q.length := hcand.1
  refine ⟨i, hi, hcand, ?_, ?_, hen⟩
  · show s.ring.get (Pct.choose s.ring s.pct).1 = _
    rw [hbest, h.get i hi, List.getElem?_eq_getElem hi]
  · simp only [State.pctPick, hbest]
    exact h.remove hi

theorem pop_empty (h : Holds s.ring []) : s.pop = (none, s) := by
  rw [State.pop, if_pos (by rw [h.tail]; rfl)]

omit [DecidableEq F] in
theorem head_ne_tail (h : Holds s.ring q) (hq : q ≠ []) : s.ring.head ≠ s.ring.tail := by
  have := length_pos_iff.mpr hq
  rw [h.tail]
  omega

theorem pop_fifo (h : Holds s.ring (g :: q)) (hoff : s.pct.enabled = false) :
    s.pop.1 = some g ∧ Holds s.pop.2.ring q ∧ s.pop.2.pct = s.pct := by
  rw [State.pop, if_neg (head_ne_tail h (cons_ne_nil g q)), if_neg (by simp [hoff])]
  exact ⟨h.first, h.pop, rfl⟩

theorem pop_pct (h : Holds s.ring q) (hq : q ≠ []) (hon : s.pct.enabled = true) : s.pop = s.pctPick := by
  rw [State.pop, if_neg (head_ne_tail h hq), if_pos hon]

/-! ## Runs -/

/-- The fibers pushed and those that the pops returned. -/
structure Log (F : Type*) where
  pushed : List F
  popped : List F

def note (l : Log F) (s : State F) : Call F → State F → Log F
  | .push g, _ => { l with pushed := l.pushed ++ [g] }
  | .pop, _ => { l with popped := l.popped ++ s.pop.1.toList }
  | .setFiber .., _ => l

def noted : System (State F × Log F) (Call F) := system.withHistory ⟨[], []⟩ note

/-- The queue between the pushes and the pops. -/
structure Inv (s : State F) (l : Log F) (q : List F) : Prop where
  holds : Holds s.ring q
  fifo (hoff : s.pct.enabled = false) : l.pushed = l.popped ++ q
  balance : l.pushed.Perm (l.popped ++ q)
  sublist : q.Sublist l.pushed

variable {l : Log F}

section

omit [DecidableEq F]

theorem Inv.of_init (h : Init s) : Inv s ⟨[], []⟩ [] where
  holds := .of_empty h.cap h.head h.tail
  fifo _ := rfl
  balance := .nil
  sublist := List.Sublist.refl []

theorem Inv.push (hI : Inv s l q) (g : F) : Inv (s.push g) { l with pushed := l.pushed ++ [g] } (q ++ [g]) where
  holds := hI.holds.push g
  fifo hoff := by
    show l.pushed ++ [g] = _
    rw [hI.fifo hoff, append_assoc]
  balance := by
    show (l.pushed ++ [g]).Perm (l.popped ++ (q ++ [g]))
    rw [← append_assoc]
    exact hI.balance.append_right [g]
  sublist := hI.sublist.append_right [g]

end

theorem Inv.pop (hI : Inv s l q) : ∃ q', Inv s.pop.2 { l with popped := l.popped ++ s.pop.1.toList } q' := by
  by_cases hq : q = []
  · subst hq
    rw [pop_empty hI.holds]
    simp only [Option.toList_none, append_nil]
    exact ⟨[], hI⟩
  · cases hen : s.pct.enabled with
    | false =>
      obtain ⟨g, q', rfl⟩ := exists_cons_of_ne_nil hq
      obtain ⟨hres, hh, hpct⟩ := pop_fifo hI.holds hen
      rw [hres]
      refine ⟨q', hh, fun _ => ?_, ?_, (sublist_cons_self g q').trans hI.sublist⟩
      · show l.pushed = l.popped ++ [g] ++ q'
        rw [hI.fifo hen, append_assoc]
        rfl
      · show l.pushed.Perm (l.popped ++ [g] ++ q')
        rw [append_assoc]
        exact hI.balance
    | true =>
      obtain ⟨i, hi, -, hres, hh, hen'⟩ := pctPick_spec hI.holds hq
      rw [pop_pct hI.holds hq hen, hres]
      refine ⟨q.eraseIdx i, hh, fun hoff => ?_, ?_, (eraseIdx_sublist q i).trans hI.sublist⟩
      · rw [hen', hen] at hoff
        cases hoff
      · show l.pushed.Perm (l.popped ++ [q[i]] ++ q.eraseIdx i)
        rw [append_assoc]
        exact hI.balance.trans ((getElem_cons_eraseIdx_perm hi).symm.append_left l.popped)

theorem Inv.step {t : State F} {c : Call F} (hI : Inv s l q) (hs : system.step s c = some t) :
    ∃ q', Inv t (note l s c t) q' := by
  cases c with
  | push g =>
    cases hs
    exact ⟨q ++ [g], hI.push g⟩
  | pop =>
    cases hs
    exact hI.pop
  | setFiber g prio fifo =>
    cases hs
    exact ⟨q, hI.holds, hI.fifo, hI.balance, hI.sublist⟩

theorem inv_of_reachable {x : State F × Log F} (hx : noted.Reachable x) : ∃ q, Inv x.1 x.2 q := by
  refine hx.invariant (P := fun x => ∃ q, Inv x.1 x.2 q) (fun x hi => ?_) ?_
  · rw [hi.2]
    exact ⟨[], .of_init hi.1⟩
  · rintro x c y ⟨q, hI⟩ - hstep
    obtain ⟨hs, hnote⟩ := System.withHistory_step hstep
    rw [hnote]
    exact hI.step hs

/-- The ring of `s` is the queue `q` of a scheduler, after the calls that `l` records. -/
structure IsQueue (s : State F) (l : Log F) (q : List F) : Prop where
  queued : s.ring.queued = q.map some
  sublist : q.Sublist l.pushed
  balance : l.pushed.Perm (l.popped ++ q)
  null : s.pop.1 = none ↔ q = []
  fifo (hoff : s.pct.enabled = false) : l.pushed = l.popped ++ q
  /-- With PCT a pop takes out one entry, and of the entries marked `pctFifo` only the first. -/
  pick (hon : s.pct.enabled = true) (hq : q ≠ []) :
    ∃ i, ∃ hi : i < q.length, s.pop.1 = some (q[i]) ∧ s.pop.2.ring.queued = (q.eraseIdx i).map some ∧
      (s.pct.fifo (q[i]) = true → ∀ j (hj : j < i), s.pct.fifo (q[j]) = false)

theorem Inv.null (hI : Inv s l q) : s.pop.1 = none ↔ q = [] := by
  constructor
  · intro hnone
    by_contra hq
    cases hen : s.pct.enabled with
    | false =>
      obtain ⟨g, q', rfl⟩ := exists_cons_of_ne_nil hq
      rw [(pop_fifo hI.holds hen).1] at hnone
      cases hnone
    | true =>
      obtain ⟨i, hi, -, hres, -⟩ := pctPick_spec hI.holds hq
      rw [pop_pct hI.holds hq hen, hres] at hnone
      cases hnone
  · rintro rfl
    rw [pop_empty hI.holds]

theorem Inv.isQueue (hI : Inv s l q) : IsQueue s l q where
  queued := hI.holds.queued_eq
  sublist := hI.sublist
  balance := hI.balance
  null := hI.null
  fifo := hI.fifo
  pick hon hq := by
    obtain ⟨i, hi, ⟨_, hcand⟩, hres, hh, -⟩ := pctPick_spec hI.holds hq
    rw [pop_pct hI.holds hq hon]
    exact ⟨i, hi, hres, hh.queued_eq, hcand⟩

/-- After every sequence of pushes and pops, through any number of growths, the ring is a queue. -/
theorem ready_ring_queue (x : State F × Log F) (hx : noted.Reachable x) : ∃ q, IsQueue x.1 x.2 q := by
  obtain ⟨q, hI⟩ := inv_of_reachable hx
  exact ⟨q, hI.isQueue⟩

/-- A ring before its first push, under a PCT scheduler with one change point. -/
def unused : State ℕ where
  ring := ⟨fun _ => none, 0, 0, 0, 0⟩
  pct := ⟨true, 1, 2, 0, fun _ => 2, 0, 0, fun _ => 0, fun _ => false⟩

def threeFibers : List (Call ℕ) :=
  [.setFiber 1 7 false, .setFiber 2 5 true, .setFiber 3 9 true, .push 1, .push 2, .push 3, .pop, .pop]

theorem ready_ring_queue_threeFibers :
    ∃ x : State ℕ × Log ℕ, noted.Reachable x ∧ x.2.popped = [1, 2] ∧ x.1.ring.queued = [some 3] ∧
      ∃ q, IsQueue x.1 x.2 q := by
  obtain ⟨x, hx, hpopped, hqueued⟩ := noted.reaches
    (fun x : State ℕ × Log ℕ => x.2.popped = [1, 2] ∧ x.1.ring.queued = [some 3]) threeFibers
    (s := (unused, ⟨[], []⟩)) ⟨⟨rfl, rfl, rfl⟩, rfl⟩ (by decide +kernel)
  exact ⟨x, hx, hpopped, hqueued, ready_ring_queue x hx⟩

end Runloom.ReadyRing
