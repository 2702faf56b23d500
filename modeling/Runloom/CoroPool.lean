import Mathlib.Data.Int.Notation
import Runloom.Transition.System

/-!
# The global pool of idle coroutines

Model of `runloom_coro_global_flush`, `runloom_coro_global_refill` and the reuse in `runloom_coro_new`, called by any
threads.  A step is an access of `runloom_coro_global_class` or a section under the lock of the pool, with what the
thread does to its own pool after it.
-/

namespace Runloom.CoroPool

open Transition

def globalBatch : ℕ := 128

def globalCap : ℤ := 1024

structure Coro where
  id : ℕ
  stackSize : ℕ
deriving DecidableEq

/-- `push l` has the coroutines of `l` on its way to the global pool. -/
inductive Pc where
  | idle
  | load
  | claim
  | reload
  | push (toGlobal : List Coro)
  | newLoad (rounded : ℕ)
  | refill (rounded : ℕ)
  | reuse (rounded : ℕ)
deriving DecidableEq

structure State (T : Type*) where
  globalPool : List Coro
  globalSize : ℤ
  globalClass : ℕ
  pool : T → List Coro
  pc : T → Pc

/-- `recycle` is a coroutine that ends, on the pool of its thread. -/
inductive Action (T : Type*) where
  | recycle (t : T) (c : Coro)
  | flush (t : T)
  | coroNew (t : T) (stackSize : ℕ)
  | step (t : T)

variable {T : Type*}

/-- The first batch of a thread's pool: those of the class; the others are freed. -/
def toGlobal (klass : ℕ) (pool : List Coro) : List Coro :=
  ((pool.take globalBatch).filter (·.stackSize = klass)).reverse

/-- The loop under the lock; what is left is freed. -/
def accept : List Coro → List Coro → ℤ → List Coro × ℤ
  | [], pool, size => (pool, size)
  | c :: rest, pool, size => if size < globalCap then accept rest (c :: pool) (size + 1) else (pool, size)

/-- `runloom_round_to_page` of a size that is at least a page. -/
def roundToPage (size : ℕ) : ℕ :=
  (max size 4096 + 4095) / 4096 * 4096

section

variable [DecidableEq T]

def goto (s : State T) (t : T) (pc : Pc) : State T :=
  { s with pc := update s.pc t pc }

def threadStep (s : State T) (t : T) : Option (State T) :=
  match s.pc t with
  | .idle => none
  | .load => some (goto s t (if s.globalClass = 0 ∧ s.pool t ≠ [] then .claim else .reload))
  | .claim => (s.pool t).head?.map fun c => goto { s with globalClass := c.stackSize } t .reload
  | .reload =>
    let l := toGlobal s.globalClass (s.pool t)
    some (goto { s with pool := update s.pool t ((s.pool t).drop globalBatch) } t
      (if l = [] then .idle else .push l))
  | .push l =>
    let (pool, size) := accept l s.globalPool s.globalSize
    some (goto { s with globalPool := pool, globalSize := size } t .idle)
  | .newLoad rounded => some (goto s t (if rounded = s.globalClass then .refill rounded else .reuse rounded))
  | .refill rounded =>
    let l := s.globalPool.take globalBatch
    some (goto { s with
      globalPool := s.globalPool.drop globalBatch
      globalSize := s.globalSize - l.length
      pool := update s.pool t (l ++ s.pool t) } t (.reuse rounded))
  | .reuse rounded =>
    match s.pool t with
    | c :: rest =>
      if c.stackSize = rounded then some (goto { s with pool := update s.pool t rest } t .idle)
      else some (goto s t .idle)
    | [] => some (goto s t .idle)

def step (s : State T) : Action T → Option (State T)
  | .recycle t c =>
    if s.pc t = .idle ∧ 0 < c.stackSize then some { s with pool := update s.pool t (c :: s.pool t) } else none
  | .flush t => if s.pc t = .idle then some (goto s t .load) else none
  | .coroNew t size =>
    if s.pc t = .idle then
      some (goto s t (if s.pool t = [] then .newLoad (roundToPage size) else .reuse (roundToPage size)))
    else none
  | .step t => threadStep s t

structure Init (s : State T) : Prop where
  globalPool : s.globalPool = []
  globalSize : s.globalSize = 0
  globalClass : s.globalClass = 0
  pool : ∀ t, s.pool t = []
  pc : ∀ t, s.pc t = .idle

def coroPool (T : Type*) [DecidableEq T] : System (State T) (Action T) where
  init := Init
  step := step

end

/-! ## The invariants -/

/-- The size is that of the list, and within the cap. -/
structure Bounded (s : State T) : Prop where
  size : s.globalSize = s.globalPool.length
  cap : s.globalSize ≤ globalCap

/-- Whatever is in the global pool, or on its way there, is of the class. -/
structure Homogeneous (s : State T) : Prop where
  pos : ∀ t, ∀ c ∈ s.pool t, 0 < c.stackSize
  global : ∀ c ∈ s.globalPool, c.stackSize = s.globalClass ∧ 0 < c.stackSize
  push : ∀ t l, s.pc t = .push l → ∀ c ∈ l, c.stackSize = s.globalClass ∧ 0 < c.stackSize

variable {s s' : State T} {a : Action T} {t : T} {pc : Pc}

theorem accept_spec (l pool : List Coro) (size : ℤ) (h : size = pool.length) (hcap : size ≤ globalCap) :
    (accept l pool size).2 = (accept l pool size).1.length ∧ (accept l pool size).2 ≤ globalCap ∧
      ∀ c ∈ (accept l pool size).1, c ∈ l ∨ c ∈ pool := by
  induction l generalizing pool size with
  | nil => exact ⟨h, hcap, fun c hc => .inr hc⟩
  | cons d l ih =>
    rw [accept]
    split
    next hlt =>
      obtain ⟨h1, h2, h3⟩ := ih (d :: pool) (size + 1) (by simp [h]) (by omega)
      refine ⟨h1, h2, fun c hc => ?_⟩
      rcases h3 c hc with hl | hp
      · exact .inl (List.mem_cons_of_mem d hl)
      · rcases List.mem_cons.mp hp with rfl | hp
        · exact .inl List.mem_cons_self
        · exact .inr hp
    next => exact ⟨h, hcap, fun c hc => .inr hc⟩

theorem Bounded.init (h : Init s) : Bounded s where
  size := by simp [h.globalSize, h.globalPool]
  cap := by simp [h.globalSize, globalCap]

theorem Homogeneous.init (h : Init s) : Homogeneous s where
  pos t := by simp [h.pool t]
  global := by simp [h.globalPool]
  push t l hl := by rw [h.pc t] at hl; cases hl

theorem Homogeneous.claim (hH : Homogeneous s) {c : Coro} (hc : s.globalClass = 0 ∨ s.globalClass = c.stackSize) :
    Homogeneous { s with globalClass := c.stackSize } := by
  rcases hc with hc | hc
  · -- nothing has the size 0, so that nothing is of a class that nobody has claimed
    have hnone : ∀ d : Coro, ¬(d.stackSize = s.globalClass ∧ 0 < d.stackSize) := fun d hd => by omega
    exact ⟨hH.pos, fun d hd => absurd (hH.global d hd) (hnone d),
      fun u m hm d hd => absurd (hH.push u m hm d hd) (hnone d)⟩
  · rw [← hc]
    exact hH

variable [DecidableEq T]

theorem Bounded.next (hB : Bounded s) (h : step s a = some s') : Bounded s' := by
  cases a with
  | recycle t c | flush t | coroNew t size =>
    obtain ⟨-, ⟨⟩⟩ := Option.ite_none_right_eq_some.mp h; exact ⟨hB.size, hB.cap⟩
  | step t =>
    simp only [step, threadStep] at h
    split at h
    next => cases h
    next => cases h; exact ⟨hB.size, hB.cap⟩
    next =>
      obtain ⟨c, -, rfl⟩ := Option.map_eq_some_iff.mp h
      exact ⟨hB.size, hB.cap⟩
    next => cases h; exact ⟨hB.size, hB.cap⟩
    next l _ =>
      cases h
      obtain ⟨h1, h2, -⟩ := accept_spec l _ _ hB.size hB.cap
      exact ⟨h1, h2⟩
    next => cases h; exact ⟨hB.size, hB.cap⟩
    next =>
      cases h
      have hsize := hB.size
      have hcap := hB.cap
      constructor
      · simp only [goto, List.length_drop, List.length_take]
        omega
      · simp only [goto]
        omega
    next =>
      split at h
      · split at h <;> (cases h; exact ⟨hB.size, hB.cap⟩)
      · cases h; exact ⟨hB.size, hB.cap⟩

/-- The claim of the class, if it is one, does not replace another size. -/
def ClaimsOnce (s : State T) : Action T → Prop
  | .step t => s.pc t = .claim → ∀ c ∈ (s.pool t).head?, s.globalClass = 0 ∨ s.globalClass = c.stackSize
  | _ => True

instance (s : State T) : DecidablePred (ClaimsOnce s) := fun a => by
  cases a <;> unfold ClaimsOnce <;> infer_instance

theorem Homogeneous.goto (hH : Homogeneous s) (t : T) (pc : Pc) {l : List Coro} (hl : ∀ c ∈ l, 0 < c.stackSize)
    (hpush : ∀ m, pc = .push m → ∀ c ∈ m, c.stackSize = s.globalClass ∧ 0 < c.stackSize) :
    Homogeneous (goto { s with pool := update s.pool t l } t pc) where
  pos u c hc := by
    by_cases hu : u = t
    · subst hu
      exact hl c (by simpa [CoroPool.goto] using hc)
    · exact hH.pos u c (by simpa [CoroPool.goto, update_of_ne hu] using hc)
  global := hH.global
  push u m hm := by
    by_cases hu : u = t
    · subst hu
      exact hpush m (by simpa [CoroPool.goto] using hm)
    · exact hH.push u m (by simpa [CoroPool.goto, update_of_ne hu] using hm)

theorem Homogeneous.jump (hH : Homogeneous s) (h : ∀ m, pc ≠ .push m) : Homogeneous (CoroPool.goto s t pc) := by
  have := hH.goto t pc (hH.pos t) fun m hm => absurd hm (h m)
  rwa [Function.update_eq_self] at this

theorem Homogeneous.next (hH : Homogeneous s) (hB : Bounded s) (hC : ClaimsOnce s a) (h : step s a = some s') :
    Homogeneous s' := by
  cases a with
  | recycle t c =>
    obtain ⟨⟨hidle, hpos⟩, ⟨⟩⟩ := Option.ite_none_right_eq_some.mp h
    have := hH.goto t .idle (l := c :: s.pool t) (by simpa [hpos] using hH.pos t) nofun
    rwa [CoroPool.goto, ← hidle, Function.update_eq_self] at this
  | flush t =>
    obtain ⟨-, ⟨⟩⟩ := Option.ite_none_right_eq_some.mp h
    exact hH.jump nofun
  | coroNew t size =>
    obtain ⟨-, ⟨⟩⟩ := Option.ite_none_right_eq_some.mp h
    exact hH.jump fun m => by split <;> nofun
  | step t =>
    simp only [step, threadStep] at h
    split at h
    next => cases h
    next =>
      cases h
      exact hH.jump fun m => by split <;> nofun
    next hpc =>
      obtain ⟨c, hc, rfl⟩ := Option.map_eq_some_iff.mp h
      exact (hH.claim (hC hpc c hc)).jump nofun
    next =>
      cases h
      refine hH.goto t _ (fun c hc => hH.pos t c (List.mem_of_mem_drop hc)) fun m hm c hc => ?_
      split at hm <;> cases hm
      obtain ⟨hmem, hsize⟩ := List.mem_filter.mp (List.mem_reverse.mp hc)
      exact ⟨of_decide_eq_true hsize, hH.pos t c (List.mem_of_mem_take hmem)⟩
    next l hpc =>
      cases h
      obtain ⟨-, -, hmem⟩ := accept_spec l _ _ hB.size hB.cap
      refine Homogeneous.jump ⟨hH.pos, fun c hc => ?_, hH.push⟩ nofun
      exact (hmem c hc).elim (hH.push t l hpc c) (hH.global c)
    next =>
      cases h
      exact hH.jump fun m => by split <;> nofun
    next =>
      cases h
      have hsub : Homogeneous { s with
          globalPool := s.globalPool.drop globalBatch
          globalSize := s.globalSize - (s.globalPool.take globalBatch).length } :=
        ⟨hH.pos, fun c hc => hH.global c (List.mem_of_mem_drop hc), hH.push⟩
      refine hsub.goto t _ (fun c hc => ?_) nofun
      rcases List.mem_append.mp hc with hc | hc
      · exact (hH.global c (List.mem_of_mem_take hc)).2
      · exact hH.pos t c hc
    next =>
      split at h
      next c rest hpool =>
        have hrest : ∀ d ∈ rest, 0 < d.stackSize := fun d hd =>
          hH.pos t d (hpool ▸ List.mem_cons_of_mem c hd)
        split at h <;> cases h
        · exact hH.goto t _ hrest nofun
        · exact hH.jump nofun
      next =>
        cases h
        exact hH.jump nofun

/-- The pool stays within its cap, and if no claim of the class replaces another size, all of it is of the class. -/
theorem global_pool_one_class : (∀ s : State T, (coroPool T).Reachable s →
      s.globalSize = s.globalPool.length ∧ (s.globalPool.length : ℤ) ≤ globalCap) ∧
    ∀ s : State T, (coroPool T).ReachableWith ClaimsOnce s → ∀ c ∈ s.globalPool, c.stackSize = s.globalClass := by
  have hbound : ∀ {s : State T}, (coroPool T).Reachable s → Bounded s := fun h =>
    h.invariant (P := Bounded) (fun _ => Bounded.init) fun _ _ _ hB _ hs => hB.next hs
  refine ⟨fun s h => ⟨(hbound h).size, (hbound h).size ▸ (hbound h).cap⟩, fun s h c hc => ?_⟩
  have hboth : Bounded s ∧ Homogeneous s := by
    refine h.invariant (P := fun s => Bounded s ∧ Homogeneous s) (fun _ h => ⟨.init h, .init h⟩) ?_
    rintro s a s' ⟨hB, hH⟩ hC hs
    exact ⟨hB.next hs, hH.next hB hC hs⟩
  exact (hboth.2.global c hc).1

def empty : State Bool where
  globalPool := []
  globalSize := 0
  globalClass := 0
  pool _ := []
  pc _ := .idle

theorem init_empty : Init empty :=
  ⟨rfl, rfl, rfl, fun _ => rfl, fun _ => rfl⟩

/-- The second thread that spills finds the class claimed. -/
theorem global_pool_one_class_secondFlush : ∃ s : State Bool, (coroPool Bool).ReachableWith ClaimsOnce s ∧
      s.globalPool = [⟨0, 8192⟩] ∧ ∀ c ∈ s.globalPool, c.stackSize = s.globalClass := by
  obtain ⟨s, hr, hp⟩ := (coroPool Bool).reachesWith ClaimsOnce (fun s => s.globalPool = [⟨0, 8192⟩])
    [.recycle false ⟨0, 8192⟩, .recycle true ⟨1, 4096⟩, .flush false, .step false, .step false, .step false,
      .step false, .flush true, .step true, .step true] init_empty (by decide +kernel)
  exact ⟨s, hr, hp, global_pool_one_class.2 s hr⟩

/-- Both threads find the class unclaimed; the second claim comes when the pool has a coroutine of the first. -/
theorem global_class_replaced :
    ∃ s : State Bool, (coroPool Bool).Reachable s ∧ ∃ c ∈ s.globalPool, c.stackSize ≠ s.globalClass := by
  obtain ⟨s, hr, hpool, hclass⟩ := (coroPool Bool).reaches
    (fun s => s.globalPool = [⟨0, 8192⟩] ∧ s.globalClass = 4096)
    [.recycle false ⟨0, 8192⟩, .recycle true ⟨1, 4096⟩, .flush false, .flush true, .step false, .step true,
      .step false, .step false, .step false, .step true] init_empty (by decide +kernel)
  exact ⟨s, hr, ⟨0, 8192⟩, by simp [hpool], by simp [hclass]⟩

end Runloom.CoroPool
