import Mathlib.Data.List.Infix
import Mathlib.Data.Nat.ModEq
import Runloom.Transition.System

/-!
# The completion queue of an io_uring

Model of `runloom_iouring_drain`, which any number of threads call.  Every atomic access is a step, and so is every
posting of the kernel.  The head and the tail are 32 bits wide and wrap; the queue has `2 ^ k` slots.

A completion is posted when the kernel puts it in the queue.
-/

namespace Runloom.CompletionQueue

open Transition

inductive Pc (X : Type*) where
  | out
  /-- Before the exchange of `draining`. -/
  | exchange
  /-- `runloom_iouring_flush_cq_overflow`, before the load of the flags. -/
  | flushFlags
  | flushEnter
  | loadHead
  | loadTail (head : BitVec 32)
  | readSlot (head : BitVec 32)
  | storeHead (head : BitVec 32) (x : X)
  /-- The slot is given back; `x` is in hand. -/
  | process (x : X)
  /-- Before `draining` is cleared. -/
  | clear
  | recheckHead
  | recheckTail (head : BitVec 32)
  | reExchange
deriving DecidableEq

structure State (T X : Type*) where
  head : BitVec 32
  tail : BitVec 32
  cqes : ℕ → X
  backlog : List X
  draining : Bool
  pc : T → Pc X
  posted : List X
  processed : List X
  seen : ℕ

inductive Action (T X : Type*) where
  | post (x : X)
  | overflow (x : X)
  /-- A thread calls `runloom_iouring_drain`. -/
  | call (t : T)
  | run (t : T)
  /-- The enter of the flush; the kernel posts `n` of the backlog. -/
  | flush (t : T) (n : ℕ)

variable {T X : Type*}

/-- `position & cq_mask`. -/
def slot (k : ℕ) (position : BitVec 32) : ℕ := position.toNat &&& (2 ^ k - 1)

namespace State

def post (k : ℕ) (s : State T X) (x : X) : State T X :=
  { s with
    cqes := Function.update s.cqes (slot k s.tail) x
    tail := s.tail + 1
    posted := s.posted ++ [x] }

/-- There is room for `n` more. -/
def room (k : ℕ) (s : State T X) (n : ℕ) : Bool := decide ((s.tail - s.head).toNat + n ≤ 2 ^ k)

variable [DecidableEq T]

def goto (s : State T X) (t : T) (pc : Pc X) : State T X := { s with pc := Function.update s.pc t pc }

def run (k : ℕ) (s : State T X) (t : T) : Option (State T X) :=
  match s.pc t with
  | .exchange =>
    if s.draining then some (s.goto t .out)
    else some ({ s with draining := true }.goto t .flushFlags)
  -- The kernel keeps `IORING_SQ_CQ_OVERFLOW` up as long as it has a backlog.
  | .flushFlags => some (s.goto t (if s.backlog.isEmpty then .loadHead else .flushEnter))
  | .loadHead => some (s.goto t (.loadTail s.head))
  | .loadTail head => some (s.goto t (if head = s.tail then .clear else .readSlot head))
  | .readSlot head => some (s.goto t (.storeHead head (s.cqes (slot k head))))
  -- From here on the kernel may use the slot again, so the completion was copied before.
  | .storeHead head x => some ({ s with head := head + 1 }.goto t (.process x))
  | .process x => some ({ s with processed := s.processed ++ [x] }.goto t .loadHead)
  | .clear => some ({ s with draining := false }.goto t .recheckHead)
  | .recheckHead => some (s.goto t (.recheckTail s.head))
  -- What was posted since the last look may have met the flag, and then nobody else drains it.
  | .recheckTail head => some (s.goto t (if head = s.tail then .out else .reExchange))
  | .reExchange =>
    if s.draining then some (s.goto t .out)
    else some ({ s with draining := true }.goto t .flushFlags)
  | _ => none

end State

variable [DecidableEq T]

def step (k : ℕ) (s : State T X) : Action T X → Option (State T X)
  | .post x => if s.room k 1 then some (s.post k x) else none
  | .overflow x => some { s with backlog := s.backlog ++ [x] }
  | .call t =>
    match s.pc t with
    | .out => some ({ s with seen := s.posted.length }.goto t .exchange)
    | _ => none
  | .run t => s.run k t
  | .flush t n =>
    match s.pc t with
    | .flushEnter =>
      if s.room k n then
        some ({ (s.backlog.take n).foldl (State.post k) s with backlog := s.backlog.drop n }.goto t .loadHead)
      else none
    | _ => none

structure Init (s : State T X) : Prop where
  head : s.head = 0
  tail : s.tail = 0
  draining : s.draining = false
  pc : ∀ t, s.pc t = .out
  posted : s.posted = []
  processed : s.processed = []
  seen : s.seen = 0

/-- A queue of `2 ^ k` slots. -/
def completionQueue (T X : Type*) [DecidableEq T] (k : ℕ) : System (State T X) (Action T X) where
  init s := k < 32 ∧ Init s
  step := step k

end Runloom.CompletionQueue

/-!
## One drainer, and none that leaves too early

The thread that has set `draining` walks the queue alone, so completions are processed once each and in the
order of the queue.

A thread that finds the flag set returns at once, and trusts the walker.  What it trusts in is that a thread
that has cleared the flag looks at the queue again before it leaves: while a completion is pending that a call
was made for, there is always a thread that will look.
-/

namespace Runloom.CompletionQueue

open Transition List

variable {T X : Type*}

/-! ## Wrapped positions -/

theorem ofNat_eq_iff {n m : ℕ} (hle : n ≤ m) (hlt : m - n < 2 ^ 32) :
    BitVec.ofNat 32 n = BitVec.ofNat 32 m ↔ n = m := by
  refine ⟨fun h => ?_, fun h => congrArg _ h⟩
  have hmod : n ≡ m [MOD 2 ^ 32] := by
    have := congrArg BitVec.toNat h
    rwa [BitVec.toNat_ofNat, BitVec.toNat_ofNat] at this
  have hdvd := (Nat.modEq_iff_dvd' hle).mp hmod
  by_contra hne
  have := Nat.le_of_dvd (by omega) hdvd
  omega

theorem toNat_ofNat_sub {n m : ℕ} (hle : n ≤ m) (hlt : m - n < 2 ^ 32) :
    (BitVec.ofNat 32 m - BitVec.ofNat 32 n).toNat = m - n := by
  rw [BitVec.toNat_sub, BitVec.toNat_ofNat, BitVec.toNat_ofNat]
  omega

theorem slot_ofNat {k : ℕ} (hk : k < 32) (n : ℕ) : slot k (BitVec.ofNat 32 n) = n % 2 ^ k := by
  rw [slot, BitVec.toNat_ofNat, Nat.and_two_pow_sub_one_eq_mod]
  exact Nat.mod_mod_of_dvd n (Nat.pow_dvd_pow 2 hk.le)

/-! ## The queue -/

/-- The queue with `n` completions taken out of it. -/
structure Holds (k n : ℕ) (s : State T X) : Prop where
  head : s.head = BitVec.ofNat 32 n
  tail : s.tail = BitVec.ofNat 32 s.posted.length
  le : n ≤ s.posted.length
  fits : s.posted.length ≤ n + 2 ^ k
  slots : ∀ i, n ≤ i → ∀ x, s.posted[i]? = some x → s.cqes (i % 2 ^ k) = x

variable {k n : ℕ} {s s' : State T X} {t : T} {pc : Pc X} {x : X}

section

variable (h : Holds k n s)
include h

theorem Holds.lt (hk : k < 32) : s.posted.length - n < 2 ^ 32 := by
  have := h.fits
  have := Nat.pow_lt_pow_right Nat.one_lt_two hk
  omega

theorem Holds.head_eq_tail_iff (hk : k < 32) : s.head = s.tail ↔ n = s.posted.length := by
  rw [h.head, h.tail]
  exact ofNat_eq_iff h.le (h.lt hk)

theorem Holds.room_iff (hk : k < 32) (m : ℕ) : s.room k m = true ↔ s.posted.length + m ≤ n + 2 ^ k := by
  rw [State.room, decide_eq_true_eq, h.head, h.tail, toNat_ofNat_sub h.le (h.lt hk)]
  have := h.le
  omega

theorem Holds.post (hk : k < 32) (hroom : s.posted.length < n + 2 ^ k) : Holds k n (s.post k x) where
  head := h.head
  tail := by
    show s.tail + 1 = BitVec.ofNat 32 (s.posted ++ [x]).length
    rw [h.tail, length_append, length_singleton, BitVec.ofNat_add]
    rfl
  le := by
    have := h.le
    show n ≤ (s.posted ++ [x]).length
    rw [length_append]
    omega
  fits := by
    show (s.posted ++ [x]).length ≤ n + 2 ^ k
    rw [length_append, length_singleton]
    omega
  slots i hi y hy := by
    have hy : (s.posted ++ [x])[i]? = some y := hy
    show Function.update s.cqes (slot k s.tail) x (i % 2 ^ k) = y
    rw [h.tail, slot_ofNat hk]
    have hlt : i < s.posted.length + 1 := by
      have := (List.getElem?_eq_some_iff.mp hy).1
      rwa [length_append, length_singleton] at this
    by_cases hlast : i = s.posted.length
    · rw [hlast, List.getElem?_concat_length] at hy
      rw [hlast, update_self]
      exact Option.some.inj hy
    · have hne : i % 2 ^ k ≠ s.posted.length % 2 ^ k := by
        intro hmod
        have hdvd := (Nat.modEq_iff_dvd' (by omega : i ≤ s.posted.length)).mp hmod
        have := Nat.le_of_dvd (by omega) hdvd
        omega
      rw [update_of_ne hne]
      rw [List.getElem?_append_left (by omega)] at hy
      exact h.slots i hi y hy

theorem Holds.cqes_head (hk : k < 32) (hlt : n < s.posted.length) :
    s.posted[n]? = some (s.cqes (slot k s.head)) := by
  rw [h.head, slot_ofNat hk, h.slots n le_rfl _ (List.getElem?_eq_getElem hlt)]
  exact List.getElem?_eq_getElem hlt

theorem Holds.takeOut (hlt : n < s.posted.length) (processed : List X) :
    Holds k (n + 1) { s with head := s.head + 1, processed := processed } where
  head := by
    show s.head + 1 = _
    rw [h.head, BitVec.ofNat_add]
    rfl
  tail := h.tail
  le := hlt
  fits := by
    have := h.fits
    show s.posted.length ≤ n + 1 + 2 ^ k
    omega
  slots i hi := h.slots i (by omega)

end

/-! ## The threads -/

def Pc.walking : Pc X → Bool
  | .flushFlags | .flushEnter | .loadHead | .loadTail _ | .readSlot _ | .storeHead _ _ | .process _
  | .clear => true
  | _ => false

/-- What the walker knows, with `n` completions taken out. -/
def Pc.Knows (n : ℕ) (s : State T X) : Pc X → Prop
  | .flushFlags | .flushEnter | .loadHead | .clear => s.processed = s.posted.take n
  | .loadTail head => head = s.head ∧ s.processed = s.posted.take n
  | .readSlot head => head = s.head ∧ n < s.posted.length ∧ s.processed = s.posted.take n
  | .storeHead head x => head = s.head ∧ s.posted[n]? = some x ∧ s.processed = s.posted.take n
  | .process x => s.processed ++ [x] = s.posted.take n
  | _ => True

def Pc.Covers (s : State T X) : Pc X → Prop
  | .exchange | .recheckHead | .reExchange => True
  | .recheckTail head => head = s.head
  | _ => False

structure Inv (k n : ℕ) (s : State T X) : Prop where
  bits : k < 32
  holds : Holds k n s
  one : ∀ t u, (s.pc t).walking = true → (s.pc u).walking = true → t = u
  walker : s.draining = true ↔ ∃ t, (s.pc t).walking = true
  knows : ∀ t, (s.pc t).Knows n s
  idle : s.draining = false → s.processed = s.posted.take n
  seen : s.seen ≤ s.posted.length
  covered : s.processed.length < s.seen → s.draining = true ∨ ∃ t, (s.pc t).Covers s

theorem inv_of_init (hk : k < 32) (h : Init s) : Inv k 0 s := by
  have hwalking : ∀ t, ¬(s.pc t).walking = true := by
    intro t
    rw [h.pc]
    exact fun h => by cases h
  exact {
    bits := hk
    holds := {
      head := h.head
      tail := by
        rw [h.tail, h.posted]
        rfl
      le := Nat.zero_le _
      fits := by
        rw [h.posted]
        exact Nat.zero_le _
      slots := fun i _ x hx => by
        rw [h.posted] at hx
        cases hx }
    one := fun t u ht => absurd ht (hwalking t)
    walker := by
      rw [h.draining]
      exact iff_of_false (fun h => by cases h) fun ⟨t, ht⟩ => hwalking t ht
    knows := fun t => by
      rw [h.pc]
      trivial
    idle := fun _ => by
      rw [h.processed, h.posted]
      rfl
    seen := by
      rw [h.seen]
      exact Nat.zero_le _
    covered := fun hlt => by
      rw [h.seen] at hlt
      cases hlt }

theorem knows_of_not_walking (h : pc.walking = false) : pc.Knows n s := by
  cases pc with
  | out | exchange | recheckHead | recheckTail head | reExchange => trivial
  | _ => cases h

theorem Pc.Knows.post (h : pc.Knows n s) (hle : n ≤ s.posted.length) : pc.Knows n (s.post k x) := by
  have htake : (s.posted ++ [x]).take n = s.posted.take n := take_append_of_le_length hle
  cases pc with
  | out | exchange | recheckHead | recheckTail head | reExchange => trivial
  | flushFlags | flushEnter | loadHead | clear => exact h.trans htake.symm
  | loadTail head => exact ⟨h.1, h.2.trans htake.symm⟩
  | readSlot head =>
    refine ⟨h.1, ?_, h.2.2.trans htake.symm⟩
    show n < (s.posted ++ [x]).length
    rw [length_append]
    exact Nat.lt_add_right _ h.2.1
  | storeHead head y =>
    refine ⟨h.1, ?_, h.2.2.trans htake.symm⟩
    show (s.posted ++ [x])[n]? = some y
    rw [List.getElem?_append_left (List.getElem?_eq_some_iff.mp h.2.1).1]
    exact h.2.1
  | process y => exact Eq.trans h htake.symm

theorem Inv.post (hI : Inv k n s) (hroom : s.posted.length < n + 2 ^ k) : Inv k n (s.post k x) where
  bits := hI.bits
  holds := hI.holds.post hI.bits hroom
  one := hI.one
  walker := hI.walker
  knows t := (hI.knows t).post hI.holds.le
  idle hidle := (hI.idle hidle).trans (take_append_of_le_length hI.holds.le).symm
  seen := by
    show s.seen ≤ (s.posted ++ [x]).length
    rw [length_append]
    exact Nat.le_add_right_of_le hI.seen
  covered hlt := by
    refine (hI.covered hlt).imp id ?_
    rintro ⟨t, ht⟩
    refine ⟨t, ?_⟩
    show ((s.pc t).Covers (s.post k x))
    cases hpc : s.pc t with
    | exchange | recheckHead | reExchange => trivial
    | recheckTail head =>
      rw [hpc] at ht
      exact ht
    | _ =>
      rw [hpc] at ht
      cases ht

theorem Inv.flush (xs : List X) (hI : Inv k n s) (hroom : s.posted.length + xs.length ≤ n + 2 ^ k) :
    Inv k n (xs.foldl (State.post k) s) := by
  induction xs generalizing s with
  | nil => exact hI
  | cons x xs ih =>
    rw [length_cons] at hroom
    apply ih (hI.post (by omega))
    show (s.posted ++ [x]).length + xs.length ≤ n + 2 ^ k
    rw [length_append, length_singleton]
    omega

theorem foldl_post_pc (xs : List X) : (xs.foldl (State.post k) s).pc = s.pc := by
  induction xs generalizing s with
  | nil => rfl
  | cons x xs ih => exact ih

theorem Inv.setBacklog (hI : Inv k n s) (backlog : List X) : Inv k n { s with backlog := backlog } where
  bits := hI.bits
  holds := ⟨hI.holds.head, hI.holds.tail, hI.holds.le, hI.holds.fits, hI.holds.slots⟩
  one := hI.one
  walker := hI.walker
  knows := hI.knows
  idle := hI.idle
  seen := hI.seen
  covered := hI.covered

theorem Inv.isPrefix (hI : Inv k n s) : s.processed <+: s.posted := by
  cases hdraining : s.draining with
  | false =>
    rw [hI.idle hdraining]
    exact take_prefix n _
  | true =>
    obtain ⟨t, ht⟩ := hI.walker.mp hdraining
    have hknows := hI.knows t
    have hdone : s.processed = s.posted.take n → s.processed <+: s.posted := by
      intro h
      rw [h]
      exact take_prefix n _
    cases hpc : s.pc t with
    | flushFlags | flushEnter | loadHead | clear => exact hdone (by rw [hpc] at hknows; exact hknows)
    | loadTail head => exact hdone (by rw [hpc] at hknows; exact hknows.2)
    | readSlot head | storeHead head x => exact hdone (by rw [hpc] at hknows; exact hknows.2.2)
    | process x =>
      -- The slot is given back before the completion is processed, so the head is one ahead.
      rw [hpc] at hknows
      have hstep : s.processed <+: s.posted.take n := ⟨[x], hknows⟩
      exact hstep.trans ( take_prefix n _)
    | _ =>
      rw [hpc] at ht
      cases ht

variable [DecidableEq T] {pc₀ : Pc X}

section

variable (hI : Inv k n s)
include hI

theorem Inv.outside (hpc₀ : s.pc t = pc₀) (hw₀ : pc₀.walking = false)
    (hw : pc.walking = false) {seen : ℕ} (hseen : seen ≤ s.posted.length)
    (hcovered : s.processed.length < seen → s.draining = true ∨ pc.Covers s ∨ ∃ u, u ≠ t ∧ (s.pc u).Covers s) :
    Inv k n ({ s with seen := seen }.goto t pc) := by
  have hself : ({ s with seen := seen }.goto t pc).pc t = pc := update_self ..
  have hother : ∀ u, u ≠ t → ({ s with seen := seen }.goto t pc).pc u = s.pc u :=
    fun u hu => update_of_ne hu ..
  have hwalking : ∀ u, (({ s with seen := seen }.goto t pc).pc u).walking = (s.pc u).walking := by
    intro u
    by_cases hu : u = t
    · rw [hu, hself, hw, hpc₀, hw₀]
    · rw [hother u hu]
  exact {
    bits := hI.bits
    holds := ⟨hI.holds.head, hI.holds.tail, hI.holds.le, hI.holds.fits, hI.holds.slots⟩
    one := fun u v hu hv => hI.one u v (hwalking u ▸ hu) (hwalking v ▸ hv)
    walker := hI.walker.trans (exists_congr fun u => by rw [hwalking u])
    knows := fun u => by
      by_cases hu : u = t
      · rw [hu, hself]
        exact knows_of_not_walking hw
      · rw [hother u hu]
        exact hI.knows u
    idle := hI.idle
    seen := hseen
    covered := fun hlt => by
      refine (hcovered hlt).imp id ?_
      rintro (hc | ⟨u, hu, hc⟩)
      · refine ⟨t, ?_⟩
        rw [hself]
        exact hc
      · refine ⟨u, ?_⟩
        rw [hother u hu]
        exact hc }

theorem Inv.win (hfree : s.draining = false) : Inv k n ({ s with draining := true }.goto t .flushFlags) := by
  have hself : ({ s with draining := true }.goto t .flushFlags).pc t = .flushFlags := update_self ..
  have hother : ∀ u, u ≠ t → ({ s with draining := true }.goto t .flushFlags).pc u = s.pc u :=
    fun u hu => update_of_ne hu ..
  have hnone : ∀ u, ¬(s.pc u).walking = true := by
    intro u hu
    rw [hI.walker.mpr ⟨u, hu⟩] at hfree
    cases hfree
  have hme : ∀ u, (({ s with draining := true }.goto t .flushFlags).pc u).walking = true → u = t := by
    intro u hu
    by_contra hne
    rw [hother u hne] at hu
    exact hnone u hu
  exact {
    bits := hI.bits
    holds := ⟨hI.holds.head, hI.holds.tail, hI.holds.le, hI.holds.fits, hI.holds.slots⟩
    one := fun u v hu hv => (hme u hu).trans (hme v hv).symm
    walker := by
      refine iff_of_true rfl ⟨t, ?_⟩
      rw [hself]
      rfl
    knows := fun u => by
      by_cases hu : u = t
      · rw [hu, hself]
        exact hI.idle hfree
      · rw [hother u hu]
        exact hI.knows u
    idle := fun h => by cases h
    seen := hI.seen
    covered := fun _ => .inl rfl }

theorem Inv.walk {m : ℕ} {head : BitVec 32} {processed : List X} (hpc₀ : s.pc t = pc₀)
    (hw₀ : pc₀.walking = true) (hw : pc.walking = true)
    (hholds : Holds k m { s with head := head, processed := processed })
    (hknows : pc.Knows m { s with head := head, processed := processed }) :
    Inv k m ({ s with head := head, processed := processed }.goto t pc) := by
  have hself : ({ s with head := head, processed := processed }.goto t pc).pc t = pc :=
    update_self ..
  have hother : ∀ u, u ≠ t → ({ s with head := head, processed := processed }.goto t pc).pc u = s.pc u :=
    fun u hu => update_of_ne hu ..
  have hwalking : (s.pc t).walking = true := by
    rw [hpc₀]
    exact hw₀
  have hme : ∀ u, (({ s with head := head, processed := processed }.goto t pc).pc u).walking = true → u = t := by
    intro u hu
    by_contra hne
    rw [hother u hne] at hu
    exact hne (hI.one u t hu hwalking)
  have hdraining : s.draining = true := hI.walker.mpr ⟨t, hwalking⟩
  exact {
    bits := hI.bits
    holds := ⟨hholds.head, hholds.tail, hholds.le, hholds.fits, hholds.slots⟩
    one := fun u v hu hv => (hme u hu).trans (hme v hv).symm
    walker := by
      refine iff_of_true hdraining ⟨t, ?_⟩
      rw [hself]
      exact hw
    knows := fun u => by
      by_cases hu : u = t
      · rw [hu, hself]
        exact hknows
      · rw [hother u hu]
        apply knows_of_not_walking
        rw [Bool.eq_false_iff]
        exact fun hu' => hu (hI.one u t hu' hwalking)
    idle := fun h => by
      have h : s.draining = false := h
      rw [hdraining] at h
      cases h
    seen := hI.seen
    covered := fun _ => .inl hdraining }

theorem Inv.clear (hpc : s.pc t = .clear) : Inv k n ({ s with draining := false }.goto t .recheckHead) := by
  have hself : ({ s with draining := false }.goto t .recheckHead).pc t = .recheckHead :=
    update_self ..
  have hother : ∀ u, u ≠ t → ({ s with draining := false }.goto t .recheckHead).pc u = s.pc u :=
    fun u hu => update_of_ne hu ..
  have hwalking : (s.pc t).walking = true := by
    rw [hpc]
    rfl
  have hnone : ∀ u, ¬(({ s with draining := false }.goto t .recheckHead).pc u).walking = true := by
    intro u hu
    by_cases hut : u = t
    · rw [hut, hself] at hu
      cases hu
    · rw [hother u hut] at hu
      exact hut (hI.one u t hu hwalking)
  have hknows := hI.knows t
  rw [hpc] at hknows
  exact {
    bits := hI.bits
    holds := ⟨hI.holds.head, hI.holds.tail, hI.holds.le, hI.holds.fits, hI.holds.slots⟩
    one := fun u v hu => absurd hu (hnone u)
    walker := iff_of_false (fun h => by cases h) fun ⟨u, hu⟩ => hnone u hu
    knows := fun u => knows_of_not_walking (Bool.eq_false_iff.mpr (hnone u))
    idle := fun _ => hknows
    seen := hI.seen
    -- A thread that met the flag has left its completions to this second look.
    covered := fun _ => by
      refine .inr ⟨t, ?_⟩
      rw [hself]
      trivial }

theorem Inv.tryDrain (hpc₀ : s.pc t = pc₀) (hw₀ : pc₀.walking = false)
    (h : (if s.draining then some (s.goto t .out)
      else some ({ s with draining := true }.goto t .flushFlags)) = some s') : Inv k n s' := by
  split at h <;> cases h
  next hbusy => exact hI.outside hpc₀ hw₀ rfl hI.seen fun _ => .inl hbusy
  next hfree => exact hI.win (Bool.eq_false_iff.mpr hfree)

theorem Inv.run (h : s.run k t = some s') : ∃ m, Inv k m s' := by
  have hknows := hI.knows t
  unfold State.run at h
  cases hpc : s.pc t with
  | out | flushEnter =>
    rw [hpc] at h
    cases h
  | exchange | reExchange =>
    rw [hpc] at h
    exact ⟨n, hI.tryDrain hpc rfl h⟩
  | flushFlags =>
    rw [hpc] at h hknows
    cases h
    refine ⟨n, ?_⟩
    split <;> exact hI.walk hpc rfl rfl hI.holds hknows
  | loadHead =>
    rw [hpc] at h hknows
    cases h
    exact ⟨n, hI.walk hpc rfl rfl hI.holds ⟨rfl, hknows⟩⟩
  | loadTail head =>
    rw [hpc] at h hknows
    obtain ⟨rfl, hdone⟩ := hknows
    cases h
    refine ⟨n, ?_⟩
    split
    next => exact hI.walk hpc rfl rfl hI.holds hdone
    next hne =>
      rw [hI.holds.head_eq_tail_iff hI.bits] at hne
      exact hI.walk hpc rfl rfl hI.holds ⟨rfl, lt_of_le_of_ne hI.holds.le hne, hdone⟩
  | readSlot head =>
    rw [hpc] at h hknows
    obtain ⟨rfl, hlt, hdone⟩ := hknows
    cases h
    exact ⟨n, hI.walk hpc rfl rfl hI.holds ⟨rfl, hI.holds.cqes_head hI.bits hlt, hdone⟩⟩
  | storeHead head x =>
    rw [hpc] at h hknows
    obtain ⟨rfl, hx, hdone⟩ := hknows
    have hlt := (List.getElem?_eq_some_iff.mp hx).1
    cases h
    refine ⟨n + 1, hI.walk hpc rfl rfl (hI.holds.takeOut hlt _) ?_⟩
    show s.processed ++ [x] = s.posted.take (n + 1)
    rw [take_add_one, hx, hdone]
    rfl
  | process x =>
    rw [hpc] at h hknows
    cases h
    have hholds := hI.holds
    refine ⟨n, hI.walk hpc rfl rfl ?_ hknows⟩
    exact ⟨hholds.head, hholds.tail, hholds.le, hholds.fits, hholds.slots⟩
  | clear =>
    rw [hpc] at h
    cases h
    exact ⟨n, hI.clear hpc⟩
  | recheckHead =>
    rw [hpc] at h
    cases h
    exact ⟨n, hI.outside hpc rfl rfl hI.seen fun _ => .inr (.inl rfl)⟩
  | recheckTail head =>
    rw [hpc] at h
    cases h
    refine ⟨n, ?_⟩
    split
    next heq =>
      refine hI.outside hpc rfl rfl hI.seen fun hlt => ?_
      -- If the thread was the one to look, there was nothing to see.
      rcases hI.covered hlt with hbusy | ⟨u, hu⟩
      · exact .inl hbusy
      · by_cases hut : u = t
        · left
          by_contra hidle
          rw [hut, hpc] at hu
          have hempty := (hI.holds.head_eq_tail_iff hI.bits).mp (hu.symm.trans heq)
          have hdone := hI.idle (Bool.eq_false_iff.mpr hidle)
          rw [hempty, take_length] at hdone
          have := hI.seen
          rw [hdone] at hlt
          omega
        · exact .inr (.inr ⟨u, hut, hu⟩)
    next => exact hI.outside hpc rfl rfl hI.seen fun _ => .inr (.inl trivial)

theorem Inv.step {a : Action T X} (h : step k s a = some s') : ∃ m, Inv k m s' := by
  cases a with
  | post x =>
    simp only [CompletionQueue.step] at h
    split at h <;> cases h
    next hroom => exact ⟨n, hI.post ((hI.holds.room_iff hI.bits 1).mp hroom)⟩
  | overflow x =>
    cases h
    exact ⟨n, hI.setBacklog _⟩
  | call t =>
    simp only [CompletionQueue.step] at h
    split at h <;> cases h
    next hpc => exact ⟨n, hI.outside hpc rfl rfl le_rfl fun _ => .inr (.inl trivial)⟩
  | run t => exact hI.run h
  | flush t m =>
    simp only [CompletionQueue.step] at h
    split at h
    next hpc =>
      split at h <;> cases h
      next hroom =>
        rw [hI.holds.room_iff hI.bits] at hroom
        have hflush := hI.flush (s.backlog.take m) (by
          rw [length_take]
          omega)
        have hpc' : ((s.backlog.take m).foldl (State.post k) s).pc t = .flushEnter := by
          rw [foldl_post_pc]
          exact hpc
        have hknows := hflush.knows t
        rw [hpc'] at hknows
        have hdropped := hflush.setBacklog (s.backlog.drop m)
        exact ⟨n, hdropped.walk hpc' rfl rfl hdropped.holds hknows⟩
    next => cases h

end

theorem inv_of_reachable (h : (completionQueue T X k).Reachable s) : ∃ n, Inv k n s := by
  refine h.invariant (P := fun s => ∃ n, Inv k n s) (fun s hs => ⟨0, ?_⟩) ?_
  · exact inv_of_init hs.1 hs.2
  · rintro s a s' ⟨n, hI⟩ - hs
    exact hI.step hs

/-- The completions are processed once each, in order, and those posted before some call began when none is in
progress. -/
theorem drains_in_order (h : (completionQueue T X k).Reachable s) :
    s.processed <+: s.posted ∧ (∀ t u, (s.pc t).walking = true → (s.pc u).walking = true → t = u) ∧
    ((∀ t, s.pc t = .out) → s.seen ≤ s.processed.length) := by
  obtain ⟨n, hI⟩ := inv_of_reachable h
  refine ⟨hI.isPrefix, hI.one, fun hout => ?_⟩
  by_contra hlt
  rcases hI.covered (by omega) with hbusy | ⟨t, ht⟩
  · obtain ⟨t, ht⟩ := hI.walker.mp hbusy
    rw [hout] at ht
    cases ht
  · rw [hout] at ht
    cases ht

def unused : State Bool ℕ := ⟨0, 0, fun _ => 0, [], false, fun _ => .out, [], [], 0⟩

/-- The second completion comes after the walker's last look, and its call returns at once; the walker looks again. -/
theorem drains_in_order_late : ∃ s, (completionQueue Bool ℕ 2).Reachable s ∧ (∀ t, s.pc t = .out) ∧ s.seen = 2 ∧
      s.seen ≤ s.processed.length ∧ s.processed <+: s.posted := by
  obtain ⟨s, hr, hout, hseen⟩ := (completionQueue Bool ℕ 2).reaches (fun s => (∀ t, s.pc t = .out) ∧ s.seen = 2)
    [.post 7, .call false, .run false, .run false, .run false, .run false, .run false, .run false, .run false,
      .run false, .run false, .post 8, .call true, .run true, .run false, .run false, .run false, .run false,
      .run false, .run false, .run false, .run false, .run false, .run false, .run false, .run false,
      .run false, .run false, .run false]
    (s := unused) ⟨by decide, rfl, rfl, rfl, fun _ => rfl, rfl, rfl, rfl⟩ (by decide +kernel)
  obtain ⟨hfront, -, hall⟩ := drains_in_order hr
  exact ⟨s, hr, hout, hseen, hall hout, hfront⟩

end Runloom.CompletionQueue
