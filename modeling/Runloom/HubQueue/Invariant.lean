import Runloom.HubQueue.Model
import Runloom.Transition.Ledger

/-!
# Who keeps a fiber alive

The reference count of a struct is the number of its holders: the spawn, the flag `in_sub_queue`, the hubs that have
taken the reference of the flag, and the wakers between their increment and the exchange.  The entries are tokens: a
fiber has one at most, wherever it is on its way from a waker to a hub, and it is covered by the flag or, for a fiber
that yielded, by the spawn.
-/

namespace Runloom.HubQueue

open Transition

variable {F H W : Type*}

/-- Where an entry can be. -/
inductive Place (H W : Type*) where
  | sub (h : H)
  | route (h : H)
  | ready (h : H)
  | deque (h : H)
  | popped (h : H)
  | push (w : W) (h : H)
deriving DecidableEq

/-- The places that only hub `h` looks at, once it is done with the fiber that it runs. -/
def Near (h : H) : Option (Place H W) → Prop
  | none => True
  | some (.sub h') => h' = h
  | some (.ready h') => h' = h
  | some (.push _ h') => h' = h
  | _ => False

def HubPc.chain : HubPc F → List (Entry F)
  | .route chain => chain
  | _ => []

def HubPc.entry : HubPc F → List (Entry F)
  | .popped e => [e]
  | _ => []

def HubPc.fiber : HubPc F → Option F
  | .claimed f _ => some f
  | .running f _ => some f
  | .resumed f _ _ => some f
  | .released f _ => some f
  | .oom f _ => some f
  | .skip f _ => some f
  | _ => none

def HubPc.ref : HubPc F → Option F
  | .claimed f true => some f
  | .running f true => some f
  | .resumed f true _ => some f
  | .oom f true => some f
  | .skip f true => some f
  | _ => none

def WakerPc.entry [DecidableEq H] (h : H) : WakerPc F H → List (Entry F)
  | .push h' e => if h' = h then [e] else []
  | _ => []

def WakerPc.ref : WakerPc F H → Option F
  | .flag _ f => some f
  | .drop f => some f
  | _ => none

def State.entries [DecidableEq H] (s : State F H W) : Place H W → List (Entry F)
  | .sub h => s.sub h
  | .route h => (s.hub h).chain
  | .ready h => s.ready h
  | .deque h => s.deque h
  | .popped h => (s.hub h).entry
  | .push w h => (s.waker w).entry h

inductive Holder (H W : Type*) where
  | spawn
  | queue
  | hub (h : H)
  | waker (w : W)

def Holds (x : Fiber) (hub : H → HubPc F) (waker : W → WakerPc F H) (f : F) : Holder H W → Prop
  | .spawn => x.spawnRef = true
  | .queue => x.inSubQueue = true
  | .hub h => (hub h).ref = some f
  | .waker w => (waker w).ref = some f

/-- The hub is on its way to a resume of the fiber, or not through with it. -/
def Busy (pc : HubPc F) (f : F) (done : Bool) : Prop :=
  match pc with
  | .claimed g _ => g = f ∧ done = false
  | .running g _ => g = f
  | .resumed g _ _ => g = f
  | .released g _ => g = f
  | .oom g _ => g = f
  | _ => False

def PcOk (pc : HubPc F) (x : Fiber) : Prop :=
  match pc with
  | .claimed _ qref => (qref = false → x.done = false) ∧ (x.done = false → x.yielded = false)
  | .running _ _ => x.done = false ∧ x.yielded = false
  | .resumed _ _ selfQueued => selfQueued = false → x.yielded = false
  | .released _ selfQueued => selfQueued = false → x.yielded = false
  | .oom _ _ => x.done = true
  | _ => True

structure FiberOk (x : Fiber) : Prop where
  free : x.free = true ↔ x.refcount = 0
  ended : x.free = false → x.spawnRef = false → x.done = true
  yielded : x.yielded = true → x.spawnRef = true ∧ x.inSubQueue = false ∧ x.done = false

structure HubOk (h : H) (pc : HubPc F) (f : F) (x : Fiber) (l : Option (Place H W)) : Prop where
  spawned : Busy pc f x.done → x.spawnRef = true
  near : Busy pc f x.done → x.done = false → Near h l
  pc : pc.fiber = some f → PcOk pc x

structure Inv [DecidableEq F] [DecidableEq H] [DecidableEq W] (s : State F H W)
    (loc : Entry F → Option (Place H W)) : Prop where
  refs : ∀ f, Counted (Holds (s.fiber f) s.hub s.waker f) (s.fiber f).refcount
  fiber : ∀ f, FiberOk (s.fiber f)
  placed : Placed s.entries loc
  queued : ∀ e p, loc e = some p → e.inc = (s.fiber e.fiber).inc ∧
    ((s.fiber e.fiber).inSubQueue = true ∨ (s.fiber e.fiber).yielded = true)
  hub : ∀ h f, HubOk h (s.hub h) f (s.fiber f) (loc (s.entry f))
  unique : ∀ h h' f, Busy (s.hub h) f (s.fiber f).done → Busy (s.hub h') f (s.fiber f).done → h = h'

theorem fiber_of_busy {pc : HubPc F} {f : F} {done : Bool} (h : Busy pc f done) : pc.fiber = some f := by
  cases pc with
  | claimed g q => exact congrArg some h.1
  | running g q | resumed g q sq | released g sq | oom g q => exact congrArg some h
  | idle | route c | popped e | skip g q => exact h.elim

theorem fiber_of_ref {pc : HubPc F} {f : F} (h : pc.ref = some f) : pc.fiber = some f := by
  unfold HubPc.ref at h
  split at h <;> first | exact h | cases h

theorem Busy.mono {pc : HubPc F} {f : F} {done done' : Bool} (h : Busy pc f done)
    (hd : done' = true → done = true) : Busy pc f done' := by
  cases pc with
  | claimed g q =>
    refine ⟨h.1, ?_⟩
    cases done'
    · rfl
    · have := hd rfl
      rw [h.2] at this
      cases this
  | running g q | resumed g q sq | released g sq | oom g q => exact h
  | idle | route c | popped e | skip g q => exact h.elim

section Frames

variable [DecidableEq F] [DecidableEq H] [DecidableEq W] {s t : State F H W}
  {loc loc' : Entry F → Option (Place H W)}

theorem Inv.pos_of_loc (hI : Inv s loc) {e : Entry F} {p : Place H W} (he : loc e = some p) :
    1 ≤ (s.fiber e.fiber).refcount := by
  rcases (hI.queued e p he).2 with h | h
  · exact (hI.refs e.fiber).pos (show Holds _ s.hub s.waker _ .queue from h)
  · exact (hI.refs e.fiber).pos (show Holds _ s.hub s.waker _ .spawn from ((hI.fiber e.fiber).yielded h).1)

theorem Inv.not_free (hI : Inv s loc) {f : F} (hf : 1 ≤ (s.fiber f).refcount) : (s.fiber f).free = false := by
  have := (hI.fiber f).free
  cases hfree : (s.fiber f).free with
  | false => rfl
  | true =>
    have := this.mp hfree
    omega

/-! ## Frames -/

section

variable (hI : Inv s loc)
include hI

/-- Entries move from place to place, and nothing happens to a fiber. -/
theorem Inv.moveTokens (hfib : t.fiber = s.fiber)
    (hhub : ∀ h, t.hub h = s.hub h ∨ (t.hub h).fiber = none ∧ (s.hub h).fiber = none)
    (hwak : ∀ w, (t.waker w).ref = (s.waker w).ref) (hplaced : Placed t.entries loc')
    (hsome : ∀ e p, loc' e = some p → ∃ q, loc e = some q)
    (hnear : ∀ h f, (s.hub h).fiber = some f → Near h (loc (s.entry f)) → Near h (loc' (s.entry f))) :
    Inv t loc' := by
  have hbusy : ∀ h f, Busy (t.hub h) f (s.fiber f).done → t.hub h = s.hub h := by
    intro h f hb
    rcases hhub h with he | ⟨hnone, -⟩
    · exact he
    · rw [fiber_of_busy hb] at hnone
      cases hnone
  have hentry : ∀ f, t.entry f = s.entry f := by
    intro f
    simp only [State.entry, hfib]
  refine ⟨fun f => ?_, fun f => hfib ▸ hI.fiber f, hplaced, fun e p he => ?_, fun h f => ?_,
    fun h h' f hb hb' => ?_⟩
  · rw [hfib]
    refine (hI.refs f).congr fun x => ?_
    cases x with
    | spawn | queue => exact Iff.rfl
    | hub h =>
      show (t.hub h).ref = some f ↔ (s.hub h).ref = some f
      rcases hhub h with he | ⟨hnone, hnone'⟩
      · rw [he]
      · refine iff_of_false (fun hr => ?_) fun hr => ?_
        · rw [fiber_of_ref hr] at hnone
          cases hnone
        · rw [fiber_of_ref hr] at hnone'
          cases hnone'
    | waker w =>
      show (t.waker w).ref = some f ↔ (s.waker w).ref = some f
      rw [hwak]
  · obtain ⟨q, hq⟩ := hsome e p he
    rw [hfib]
    exact hI.queued e q hq
  · rw [hfib, hentry]
    have hok := hI.hub h f
    refine ⟨fun hb => ?_, fun hb hd => ?_, fun hf => ?_⟩
    · rw [hbusy h f hb] at hb
      exact hok.spawned hb
    · rw [hbusy h f hb] at hb
      exact hnear h f (fiber_of_busy hb) (hok.near hb hd)
    · rcases hhub h with he | ⟨hnone, -⟩
      · rw [he] at hf ⊢
        exact hok.pc hf
      · rw [hf] at hnone
        cases hnone
  · rw [hfib] at hb hb'
    rw [hbusy h f hb] at hb
    rw [hbusy h' f hb'] at hb'
    exact hI.unique h h' f hb hb'

theorem Inv.moveToken {e : Entry F} {p q : Place H W} (hloc : loc e = some p) (hfib : t.fiber = s.fiber)
    (hhub : ∀ h, t.hub h = s.hub h ∨ (t.hub h).fiber = none ∧ (s.hub h).fiber = none)
    (hwak : ∀ w, (t.waker w).ref = (s.waker w).ref)
    (hplaced : Placed t.entries (update loc e (some q)))
    (hnear : ∀ h f, (s.hub h).fiber = some f → Near h (some p) → Near h (some q)) :
    Inv t (update loc e (some q)) := by
  refine hI.moveTokens hfib hhub hwak hplaced (fun e' p' hp => ?_) (fun h f hf hn => ?_)
  · by_cases he : e' = e
    · exact ⟨p, he ▸ hloc⟩
    · rw [update_of_ne he] at hp
      exact ⟨p', hp⟩
  · by_cases he : s.entry f = e
    · rw [he, hloc] at hn
      rw [he, update_self]
      exact hnear h f hf hn
    · rw [update_of_ne he]
      exact hn

theorem Inv.change {f : F} {x : Fiber} (hfib : t.fiber = update s.fiber f x)
    (hrefs : ∀ g, g ≠ f → ∀ y, Holds (s.fiber g) t.hub t.waker g y ↔ Holds (s.fiber g) s.hub s.waker g y)
    (hbusy : ∀ g, g ≠ f → ∀ h, (t.hub h).fiber = some g → t.hub h = s.hub h)
    (hinc : x.inc = (s.fiber f).inc) (hcount : Counted (Holds x t.hub t.waker f) x.refcount)
    (hok : FiberOk x) (hplaced : Placed t.entries loc') (hloc : ∀ e, e ≠ s.entry f → loc' e = loc e)
    (hq : ∀ p, loc' (s.entry f) = some p → x.inSubQueue = true ∨ x.yielded = true)
    (hhub : ∀ h, HubOk h (t.hub h) f x (loc' (s.entry f)))
    (huniq : ∀ h h', Busy (t.hub h) f x.done → Busy (t.hub h') f x.done → h = h') : Inv t loc' := by
  have hself : t.fiber f = x := by rw [hfib, update_self]
  have hne : ∀ g, g ≠ f → t.fiber g = s.fiber g := by
    intro g hg
    rw [hfib, update_of_ne hg]
  have hentry : t.entry f = s.entry f := by
    simp only [State.entry, hself, hinc]
  refine ⟨fun g => ?_, fun g => ?_, hplaced, fun e p he => ?_, fun h g => ?_, fun h h' g hb hb' => ?_⟩
  · by_cases hg : g = f
    · subst hg
      rw [hself]
      exact hcount
    · rw [hne g hg]
      exact (hI.refs g).congr (hrefs g hg)
  · by_cases hg : g = f
    · subst hg
      rw [hself]
      exact hok
    · rw [hne g hg]
      exact hI.fiber g
  · by_cases hes : e = s.entry f
    · subst hes
      rw [show (s.entry f).fiber = f from rfl, hself]
      exact ⟨hinc.symm, hq p he⟩
    · rw [hloc e hes] at he
      obtain ⟨hi, hquot⟩ := hI.queued e p he
      have hef : e.fiber ≠ f := by
        rintro rfl
        apply hes
        cases e
        simp only [State.entry]
        simp only at hi
        rw [← hi]
      rw [hne _ hef]
      exact ⟨hi, hquot⟩
  · by_cases hg : g = f
    · subst hg
      rw [hself, hentry]
      exact hhub h
    · have hent : t.entry g = s.entry g := by simp only [State.entry, hne g hg]
      have hge : s.entry g ≠ s.entry f := fun he => hg (congrArg Entry.fiber he)
      rw [hne g hg, hent, hloc _ hge]
      have hsame := hbusy g hg h
      refine ⟨fun hb => ?_, fun hb hd => ?_, fun hf => ?_⟩
      · rw [hsame (fiber_of_busy hb)] at hb
        exact (hI.hub h g).spawned hb
      · rw [hsame (fiber_of_busy hb)] at hb
        exact (hI.hub h g).near hb hd
      · have he := hsame hf
        rw [he] at hf ⊢
        exact (hI.hub h g).pc hf
  · by_cases hg : g = f
    · subst hg
      rw [hself] at hb hb'
      exact huniq h h' hb hb'
    · rw [hne g hg] at hb hb'
      rw [hbusy g hg h (fiber_of_busy hb)] at hb
      rw [hbusy g hg h' (fiber_of_busy hb')] at hb'
      exact hI.unique h h' g hb hb'

theorem Inv.atHub {h : H} {f : F} {x : Fiber} {pc : HubPc F}
    (hfib : t.fiber = update s.fiber f x) (hhub : t.hub = update s.hub h pc)
    (hwak : t.waker = s.waker) (hold : ∀ g, (s.hub h).fiber = some g → g = f)
    (hnew : ∀ g, pc.fiber = some g → g = f) (hinc : x.inc = (s.fiber f).inc)
    (hcount : Counted (Holds x (update s.hub h pc) s.waker f) x.refcount) (hok : FiberOk x)
    (hplaced : Placed t.entries loc') (hloc : ∀ e, e ≠ s.entry f → loc' e = loc e)
    (hq : ∀ p, loc' (s.entry f) = some p → x.inSubQueue = true ∨ x.yielded = true)
    (hpc : HubOk h pc f x (loc' (s.entry f)))
    (hothers : ∀ h', h' ≠ h → HubOk h' (s.hub h') f x (loc' (s.entry f)))
    (hdone : (s.fiber f).done = true → x.done = true)
    (huniq : Busy pc f x.done → ∀ h', h' ≠ h → ¬Busy (s.hub h') f (s.fiber f).done) : Inv t loc' := by
  have hself : t.hub h = pc := by rw [hhub, update_self]
  have hne : ∀ h', h' ≠ h → t.hub h' = s.hub h' := by
    intro h' hh
    rw [hhub, update_of_ne hh]
  refine hI.change hfib (fun g hg y => ?_) (fun g hg h' hf => ?_) hinc (by rw [hhub, hwak]; exact hcount)
    hok hplaced hloc hq (fun h' => ?_) (fun h₁ h₂ hb₁ hb₂ => ?_)
  · cases y with
    | spawn | queue => exact Iff.rfl
    | waker w =>
      show (t.waker w).ref = some g ↔ (s.waker w).ref = some g
      rw [hwak]
    | hub h' =>
      show (t.hub h').ref = some g ↔ (s.hub h').ref = some g
      by_cases hh : h' = h
      · subst hh
        rw [hself]
        exact iff_of_false (fun hr => hg (hnew g (fiber_of_ref hr))) fun hr => hg (hold g (fiber_of_ref hr))
      · rw [hne h' hh]
  · by_cases hh : h' = h
    · subst hh
      rw [hself] at hf
      exact absurd (hnew g hf) hg
    · exact hne h' hh
  · by_cases hh : h' = h
    · subst hh
      rw [hself]
      exact hpc
    · rw [hne h' hh]
      exact hothers h' hh
  · by_cases h₁h : h₁ = h
    · by_cases h₂h : h₂ = h
      · rw [h₁h, h₂h]
      · subst h₁h
        rw [hself] at hb₁
        rw [hne h₂ h₂h] at hb₂
        exact absurd (hb₂.mono hdone) (huniq hb₁ h₂ h₂h)
    · by_cases h₂h : h₂ = h
      · subst h₂h
        rw [hself] at hb₂
        rw [hne h₁ h₁h] at hb₁
        exact absurd (hb₁.mono hdone) (huniq hb₂ h₁ h₁h)
      · rw [hne h₁ h₁h] at hb₁
        rw [hne h₂ h₂h] at hb₂
        exact hI.unique h₁ h₂ f (hb₁.mono hdone) (hb₂.mono hdone)

theorem Inv.atWaker {w : W} {f : F} {x : Fiber} {pc : WakerPc F H}
    (hfib : t.fiber = update s.fiber f x) (hhub : t.hub = s.hub)
    (hwak : t.waker = update s.waker w pc) (hold : ∀ g, (s.waker w).ref = some g → g = f)
    (hnew : ∀ g, pc.ref = some g → g = f) (hinc : x.inc = (s.fiber f).inc)
    (hcount : Counted (Holds x s.hub (update s.waker w pc) f) x.refcount) (hok : FiberOk x)
    (hplaced : Placed t.entries loc') (hloc : ∀ e, e ≠ s.entry f → loc' e = loc e)
    (hq : ∀ p, loc' (s.entry f) = some p → x.inSubQueue = true ∨ x.yielded = true)
    (hhubs : ∀ h, HubOk h (s.hub h) f x (loc' (s.entry f))) (hdone : x.done = (s.fiber f).done) :
    Inv t loc' := by
  refine hI.change hfib (fun g hg y => ?_) (fun g hg h' hf => by rw [hhub]) hinc
    (by rw [hhub, hwak]; exact hcount) hok hplaced hloc hq (fun h => by rw [hhub]; exact hhubs h)
    (fun h₁ h₂ hb₁ hb₂ => ?_)
  · cases y with
    | spawn | queue => exact Iff.rfl
    | hub h =>
      show (t.hub h).ref = some g ↔ (s.hub h).ref = some g
      rw [hhub]
    | waker w' =>
      show (t.waker w').ref = some g ↔ (s.waker w').ref = some g
      rw [hwak]
      by_cases hw : w' = w
      · subst hw
        rw [update_self]
        exact iff_of_false (fun hr => hg (hnew g hr)) fun hr => hg (hold g hr)
      · rw [update_of_ne hw]
  · rw [hhub, hdone] at hb₁ hb₂
    exact hI.unique h₁ h₂ f hb₁ hb₂

end

end Frames

end Runloom.HubQueue
