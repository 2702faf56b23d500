import Mathlib.Data.Int.Order.Basic
import Mathlib.Data.List.Nodup
import Runloom.CoCondition.Model
import Runloom.Handoff.WaitList

/-!
# The cooperative condition variable: the parkers

A parker is in the queue, or it was popped; and a `wait` that has returned has left its last parker in neither, or
among the popped ones.  `Fits` says this of one party, with the place where its call is, and a pop keeps it for every
party at once.
-/

namespace Runloom.CoCondition

open Transition Handoff List

variable {F : Type*}

def Stage.holds : Stage → Bool
  | .counting | .releasing | .removing => true
  | _ => false

def Stage.lined : Stage → Bool
  | .counting | .releasing => true
  | _ => false

def Stage.handle : Stage → Bool
  | .acquiring | .removing => false
  | _ => true

namespace Pc

def parker : Pc F → Option ℕ
  | .round _ k _ => some k
  | _ => none

/-- The last parker of a `wait` that has not returned. -/
def running : Pc F → Option ℕ
  | .round _ k _ | .checking _ k | .restoring _ k _ => some k
  | _ => none

/-- The last parker of a `wait` that is to return `True`. -/
def pending : Pc F → Option ℕ
  | .round _ k _ | .restoring _ k true => some k
  | _ => none

def handle : Pc F → Option ℕ
  | .round _ k x => if x.handle then some k else none
  | _ => none

def ended : Pc F → Option (ℕ × Bool)
  | .returned (.waited k r) => some (k, r)
  | _ => none

def holds : Pc F → Bool
  | .idle => false
  | .round _ _ x => x.holds
  | _ => true

def lined : Pc F → Bool
  | .round _ _ x => x.lined
  | _ => false

def pops : Pc F → Bool
  | .popping .. => true
  | _ => false

def hand : Pc F → List (Parker F)
  | .popping _ _ _ woke => woke
  | .collecting ps inmem rest => ps ++ (inmem ++ rest)
  | .waking ps => ps
  | _ => []

def toWake (p : Pc F) : List F := p.hand.map Parker.fiber

def saved : Pc F → Option ℤ
  | .entered _ n => some n
  | .making w | .round w _ _ | .checking w _ | .restoring w _ _ => some w.saved
  | _ => none

def deadline : Pc F → Option ℤ
  | .making w | .round w _ _ | .checking w _ | .restoring w _ _ => w.deadline
  | _ => none

/-- The `wait` returns `False`. -/
def late : Pc F → Bool
  | .restoring _ _ false | .returned (.waited _ false) => true
  | _ => false

theorem holds_of_mem_hand {p : Pc F} {q : Parker F} (h : q ∈ p.hand) : p.holds = true := by
  cases p with
  | idle | round => cases h
  | _ => rfl

theorem holds_of_lined {p : Pc F} (h : p.lined = true) : p.holds = true := by
  cases p with
  | round w k x => cases x <;> first | rfl | cases h
  | _ => cases h

theorem holds_of_pops {p : Pc F} (h : p.pops = true) : p.holds = true := by
  cases p with
  | idle | round => cases h
  | _ => rfl

theorem holds_of_ended {p : Pc F} {x : ℕ × Bool} (h : p.ended = some x) : p.holds = true := by
  cases p with
  | idle | round => cases h
  | _ => rfl

theorem parker_of_mem_hand {p : Pc F} {q : Parker F} (h : q ∈ p.hand) : p.parker = none := by
  cases p with
  | round => cases h
  | _ => rfl

theorem running_of_parker {p : Pc F} {k : ℕ} (h : p.parker = some k) : p.running = some k ∧ p.pending = some k := by
  cases p with
  | round w j x => exact ⟨h, h⟩
  | _ => cases h

theorem handle_of_asleep {p : Pc F} {k : ℕ} (h : p.asleep = true) (hk : p.parker = some k) : p.handle = some k := by
  cases p with
  | round w j x =>
    cases hk
    cases x <;> first | rfl | cases h
  | _ => cases hk

end Pc

/-! ## What the queue says of one party -/

structure Fits (waiters removed : List (Parker F)) (returns : List (Parker F × Bool)) (gone : Parker F → Bool)
    (made : ℕ) (f : F) (p : Pc F) : Prop where
  queued : ∀ k, ⟨f, k⟩ ∈ waiters → p.parker = some k
  counted : ∀ k, p.parker = some k → ⟨f, k⟩ ∈ waiters ∨ ⟨f, k⟩ ∈ removed
  settled : ∀ k, ⟨f, k⟩ ∈ removed → (⟨f, k⟩, true) ∈ returns ∨ p.pending = some k
  won : ∀ k, p.pending = some k → p.parker = none → ⟨f, k⟩ ∈ removed
  outcome : ∀ k r, (⟨f, k⟩, r) ∈ returns → (r = true ↔ ⟨f, k⟩ ∈ removed) ∧ p.running ≠ some k
  ended : ∀ k r, p.ended = some (k, r) → (⟨f, k⟩, r) ∈ returns
  known : ∀ k, p.running = some k → k < made
  fresh : ∀ k, made ≤ k → ⟨f, k⟩ ∉ removed ∧ (∀ r, (⟨f, k⟩, r) ∉ returns) ∧ gone ⟨f, k⟩ = false
  handle : ∀ k, p.handle = some k → gone ⟨f, k⟩ = false

variable {waiters waiters' removed removed' : List (Parker F)} {returns returns' : List (Parker F × Bool)}
  {gone gone' : Parker F → Bool} {made made' : ℕ} {f d : F} {p q : Pc F} {x : Parker F}

theorem Fits.congr (h : Fits waiters removed returns gone made f p)
    (hw : ∀ k, ⟨f, k⟩ ∈ waiters' ↔ ⟨f, k⟩ ∈ waiters) (hr : ∀ k, ⟨f, k⟩ ∈ removed' ↔ ⟨f, k⟩ ∈ removed)
    (ht : ∀ k r, (⟨f, k⟩, r) ∈ returns' ↔ (⟨f, k⟩, r) ∈ returns) (hg : ∀ k, gone' ⟨f, k⟩ = gone ⟨f, k⟩) :
    Fits waiters' removed' returns' gone' made f p := by
  refine ⟨fun k hk => ?_, fun k hk => ?_, fun k hk => ?_, fun k hk hp => ?_, fun k r hk => ?_, fun k r hk => ?_,
    h.known, fun k hk => ?_, fun k hk => ?_⟩
  · exact h.queued k ((hw k).mp hk)
  · rw [hw, hr]
    exact h.counted k hk
  · rw [ht]
    exact h.settled k ((hr k).mp hk)
  · rw [hr]
    exact h.won k hk hp
  · rw [hr]
    exact h.outcome k r ((ht k r).mp hk)
  · rw [ht]
    exact h.ended k r hk
  · rw [hr, hg]
    obtain ⟨hremoved, hreturns, hgone⟩ := h.fresh k hk
    exact ⟨hremoved, fun r hr' => hreturns r ((ht k r).mp hr'), hgone⟩
  · rw [hg]
    exact h.handle k hk

theorem Fits.move (h : Fits waiters removed returns gone made f p) (hparker : q.parker = p.parker)
    (hpending : q.pending = p.pending) (hrunning : ∀ k, q.running = some k → p.running = some k)
    (hhandle : ∀ k, q.handle = some k → p.handle = some k) (hended : q.ended = none) :
    Fits waiters removed returns gone made f q := by
  refine ⟨fun k hk => ?_, fun k hk => ?_, fun k hk => ?_, fun k hk hp => ?_, fun k r hk => ?_, fun k r hk => ?_,
    fun k hk => h.known k (hrunning k hk), h.fresh, fun k hk => h.handle k (hhandle k hk)⟩
  · rw [hparker]
    exact h.queued k hk
  · rw [hparker] at hk
    exact h.counted k hk
  · rw [hpending]
    exact h.settled k hk
  · rw [hpending] at hk
    rw [hparker] at hp
    exact h.won k hk hp
  · obtain ⟨hr, hne⟩ := h.outcome k r hk
    exact ⟨hr, fun hq => hne (hrunning k hq)⟩
  · rw [hended] at hk
    cases hk

theorem Fits.pop (h : Fits (x :: waiters) removed returns gone made f p) :
    Fits waiters (removed ++ [x]) returns gone made f p := by
  have hmine : ∀ k, (⟨f, k⟩ : Parker F) = x → p.parker = some k := by
    rintro k rfl
    exact h.queued k mem_cons_self
  have hmem : ∀ k, ⟨f, k⟩ ∈ removed ++ [x] ↔ ⟨f, k⟩ ∈ removed ∨ ⟨f, k⟩ = x := fun k => by
    rw [mem_append, mem_singleton]
  refine ⟨fun k hk => h.queued k (mem_cons_of_mem x hk), fun k hk => ?_, fun k hk => ?_, fun k hk hp => ?_,
    fun k r hk => ?_, h.ended, h.known, fun k hk => ?_, h.handle⟩
  · rw [hmem]
    rcases h.counted k hk with hw | hr
    · rcases mem_cons.mp hw with heq | hw
      · exact .inr (.inr heq)
      · exact .inl hw
    · exact .inr (.inl hr)
  · rcases (hmem k).mp hk with hr | heq
    · exact h.settled k hr
    · exact .inr (Pc.running_of_parker (hmine k heq)).2
  · rw [hmem]
    exact .inl (h.won k hk hp)
  · obtain ⟨hr, hne⟩ := h.outcome k r hk
    refine ⟨?_, hne⟩
    rw [hmem, or_iff_left]
    · exact hr
    · exact fun heq => hne (Pc.running_of_parker (hmine k heq)).1
  · obtain ⟨hremoved, hreturns, hgone⟩ := h.fresh k hk
    refine ⟨?_, hreturns, hgone⟩
    rw [hmem, not_or]
    refine ⟨hremoved, fun heq => ?_⟩
    have := h.known k (Pc.running_of_parker (hmine k heq)).1
    omega

theorem Fits.popAll {l : List (Parker F)} (h : Fits (l ++ waiters) removed returns gone made f p) :
    Fits waiters (removed ++ l) returns gone made f p := by
  induction l generalizing removed with
  | nil => simpa using h
  | cons x l ih =>
    rw [append_cons]
    exact ih h.pop

/-! ## What a `wait` keeps of its call -/

structure Terms (kind : Kind) (count now : ℤ) (e : Entry) (p : Pc F) : Prop where
  entered : ∀ timeout saved, p = .entered timeout saved → e.timeout = timeout ∧ e.began ≤ now
  saved : ∀ n, p.saved = some n → n = e.depth ∧ (kind = .lock → e.depth = 0)
  due : ∀ x, p.deadline = some x → ∃ timeout, e.timeout = some timeout ∧ e.began + timeout ≤ x
  late : p.late = true → ∃ timeout, e.timeout = some timeout ∧ e.began + timeout ≤ now
  depth : ∀ x, p.ended = some x → count = e.depth

section Terms

variable {kind : Kind} {count count' now now' : ℤ} {e e' : Entry}

theorem Terms.congr (h : Terms kind count now e p) (hc : p.holds = true → count' = count) (hn : now ≤ now') :
    Terms kind count' now' e p := by
  refine ⟨fun timeout saved hp => ?_, h.saved, h.due, fun hl => ?_, fun x hx => ?_⟩
  · obtain ⟨ht, hb⟩ := h.entered timeout saved hp
    exact ⟨ht, le_trans hb hn⟩
  · obtain ⟨timeout, ht, hb⟩ := h.late hl
    exact ⟨timeout, ht, le_trans hb hn⟩
  · rw [hc (Pc.holds_of_ended hx)]
    exact h.depth x hx

theorem Terms.move (h : Terms kind count now e p) (hentered : ∀ timeout saved, q ≠ .entered timeout saved)
    (hsaved : ∀ n, q.saved = some n → p.saved = some n) (hdue : ∀ x, q.deadline = some x → p.deadline = some x)
    (hlate : q.late = false) (hended : q.ended = none) : Terms kind count now e q := by
  refine ⟨fun timeout saved hq => absurd hq (hentered timeout saved), fun n hn => h.saved n (hsaved n hn),
    fun x hx => h.due x (hdue x hx), fun hl => ?_, fun x hx => ?_⟩
  · rw [hlate] at hl
    cases hl
  · rw [hended] at hx
    cases hx

theorem Terms.none (hentered : ∀ timeout saved, p ≠ .entered timeout saved) (hsaved : p.saved = Option.none)
    (hdue : p.deadline = Option.none) (hlate : p.late = false) (hended : p.ended = Option.none) :
    Terms kind count now e p := by
  refine ⟨fun timeout saved hp => absurd hp (hentered timeout saved), fun n hn => ?_, fun x hx => ?_, fun hl => ?_,
    fun x hx => ?_⟩
  · rw [hsaved] at hn
    cases hn
  · rw [hdue] at hx
    cases hx
  · rw [hlate] at hl
    cases hl
  · rw [hended] at hx
    cases hx

end Terms

/-! ## The invariant -/

/-- A `notify` took what it asked for from the head of the queue. -/
structure Notice.Exact (x : Notice F) : Prop where
  woke : x.woke = x.queued.take (x.asked.elim x.queued.length Int.toNat)
  nodup : (x.queued.map Parker.fiber).Nodup

/-- A `notify` in its loop. -/
structure Popping (waiters : List (Parker F)) (asked : ℤ) (queued : List (Parker F)) (n : ℕ)
    (woke : List (Parker F)) : Prop where
  split : queued = woke ++ waiters
  turns : n + woke.length = asked.toNat
  nodup : (queued.map Parker.fiber).Nodup

structure Inv (kind : Kind) (s : State F) : Prop where
  holds : ∀ f, (s.pc f).holds = true → s.lock.holder = some f
  plain : kind = .lock → s.lock.count = 0
  fits : ∀ f, Fits s.waiters s.removed s.returns s.gone (s.made f) f (s.pc f)
  nodup : (s.waiters ++ s.removed).Nodup
  once : (s.returns.map Prod.fst).Nodup
  exact : ∀ x ∈ s.notices, x.Exact
  popping : ∀ f asked queued n woke, s.pc f = .popping asked queued n woke →
    Popping s.waiters asked queued n woke ∧ s.removed = s.notices.flatMap Notice.woke ++ woke
  settled : (∀ f, (s.pc f).pops = false) → s.removed = s.notices.flatMap Notice.woke
  handed : ∀ f, ∀ x ∈ (s.pc f).hand, (s.pc x.fiber).parker = some x.round
  lined : ∀ f, (s.pc f).lined = true → f ∈ s.waiters.map Parker.fiber
  reached : ∀ f, (s.pc f).asleep = true → Reached Pc.toWake (s.waiters.map Parker.fiber) s.credit s.pc f
  terms : ∀ f, Terms kind s.lock.count s.now (s.entry f) (s.pc f)

variable {kind : Kind} {s t : State F}

theorem Inv.init [DecidableEq F] (h : Init s) : Inv kind s where
  holds f hf := by
    rw [h.pc] at hf
    cases hf
  plain _ := by rw [h.lock]
  fits f := by
    rw [h.waiters, h.removed, h.returns, h.pc]
    exact ⟨nofun, nofun, nofun, nofun, nofun, nofun, nofun,
      fun k _ => ⟨not_mem_nil, fun _ => not_mem_nil, h.gone _⟩, nofun⟩
  nodup := by
    rw [h.waiters, h.removed]
    exact nodup_nil
  once := by
    rw [h.returns]
    exact nodup_nil
  exact := by
    rw [h.notices]
    exact nofun
  popping f asked queued n woke hf := by
    rw [h.pc] at hf
    cases hf
  settled _ := by
    rw [h.removed, h.notices]
    rfl
  handed f := by
    rw [h.pc]
    exact nofun
  lined f hf := by
    rw [h.pc] at hf
    cases hf
  reached f hf := by
    rw [h.pc] at hf
    cases hf
  terms f := by
    rw [h.pc]
    exact .none nofun rfl rfl rfl rfl

section

variable (hI : Inv kind s)
include hI

theorem Inv.eq_of_holds (hf : (s.pc f).holds = true) (hd : (s.pc d).holds = true) : f = d := by
  have := hI.holds f hf
  rw [hI.holds d hd] at this
  exact (Option.some.inj this).symm

theorem Inv.removed_eq (hf : s.lock.holder = some f) (hp : (s.pc f).pops = false) :
    s.removed = s.notices.flatMap Notice.woke := by
  refine hI.settled fun d => ?_
  rw [Bool.eq_false_iff]
  intro hd
  have hholds := hI.holds d (Pc.holds_of_pops hd)
  rw [hf] at hholds
  cases hholds
  rw [hp] at hd
  cases hd

theorem Inv.nodup_fibers : (s.waiters.map Parker.fiber).Nodup := by
  refine List.Nodup.map_on (fun x hx y hy hxy => ?_) hI.nodup.of_append_left
  obtain ⟨f, j⟩ := x
  obtain ⟨d, k⟩ := y
  cases hxy
  have hj := (hI.fits f).queued j hx
  rw [(hI.fits f).queued k hy] at hj
  cases hj
  rfl

end

section Steps

variable [DecidableEq F]

@[simp] theorem State.goto_self : (s.goto f p).pc f = p := update_self ..

theorem State.goto_of_ne (h : d ≠ f) : (s.goto f p).pc d = s.pc d := update_of_ne h ..

theorem State.forall_goto {P : F → Pc F → Prop} (hf : P f p) (hd : ∀ d, d ≠ f → P d (s.pc d)) (d : F) :
    P d ((s.goto f p).pc d) := by
  by_cases h : d = f
  · subst h
    rwa [goto_self]
  · rw [goto_of_ne h]
    exact hd d h

/-! ## Steps that leave the queue alone -/

section

variable (hI : Inv kind s)
include hI

theorem Inv.goto (hholds : p.holds = true → s.lock.holder = some f)
    (hfits : Fits s.waiters s.removed s.returns s.gone (s.made f) f p)
    (hpopping : ∀ asked queued n woke, p = .popping asked queued n woke →
      Popping s.waiters asked queued n woke ∧ s.removed = s.notices.flatMap Notice.woke ++ woke)
    (hsettled : p.pops = false → (s.pc f).pops = false)
    (hparker : ∀ k, (s.pc f).parker = some k → p.parker = some k ∨ (s.pc f).holds = true)
    (hhand : ∀ x ∈ p.hand, x ∈ (s.pc f).hand)
    (hwake : ∀ x ∈ (s.pc f).hand, x ∈ p.hand ∨ (s.pc x.fiber).asleep = false ∨ 0 < s.credit x.fiber)
    (hlined : p.lined = true → (s.pc f).lined = true)
    (hsleep : p.asleep = true → (s.pc f).asleep = true ∨ f ∈ s.waiters.map Parker.fiber)
    (hterms : Terms kind s.lock.count s.now (s.entry f) p) : Inv kind (s.goto f p) := by
  have hreached : ∀ d, (s.pc d).asleep = true →
      Reached Pc.toWake (s.waiters.map Parker.fiber) s.credit (s.goto f p).pc d := by
    intro d hd
    by_cases hc : 0 < s.credit d
    · exact .inr (.inl hc)
    refine (hI.reached d hd).move Or.inl fun hmem => ?_
    obtain ⟨x, hx, rfl⟩ := mem_map.mp hmem
    rcases hwake x hx with hx | hx | hx
    · exact mem_map_of_mem hx
    · rw [hd] at hx
      cases hx
    · exact absurd hx hc
  refine ⟨?_, hI.plain, ?_, hI.nodup, hI.once, hI.exact, ?_, fun hquiet => ?_, ?_, ?_, ?_, ?_⟩
  · exact State.forall_goto (P := fun d q => q.holds = true → s.lock.holder = some d) hholds fun d _ => hI.holds d
  · exact State.forall_goto (P := fun d q => Fits s.waiters s.removed s.returns s.gone (s.made d) d q) hfits
      fun d _ => hI.fits d
  · exact State.forall_goto (P := fun _ q => ∀ asked queued n woke, q = .popping asked queued n woke →
      Popping s.waiters asked queued n woke ∧ s.removed = s.notices.flatMap Notice.woke ++ woke) hpopping
      fun d _ => hI.popping d
  · refine hI.settled fun d => ?_
    have hd := hquiet d
    by_cases hdf : d = f
    · subst hdf
      rw [State.goto_self] at hd
      exact hsettled hd
    · rwa [State.goto_of_ne hdf] at hd
  · -- Who is in somebody's hand has not moved, unless with the lock, and then no hand is full.
    refine State.forall_goto (P := fun _ q => ∀ x ∈ q.hand, ((s.goto f p).pc x.fiber).parker = some x.round) ?_ ?_
    · intro x hx
      have hmem := hhand x hx
      have hparked := hI.handed f x hmem
      have hne : x.fiber ≠ f := by
        intro heq
        rw [heq, Pc.parker_of_mem_hand hmem] at hparked
        cases hparked
      rwa [State.goto_of_ne hne]
    · intro d hdf x hx
      have hparked := hI.handed d x hx
      by_cases heq : x.fiber = f
      · rw [heq] at hparked ⊢
        rw [State.goto_self]
        rcases hparker _ hparked with h | h
        · exact h
        · exact absurd (hI.eq_of_holds (Pc.holds_of_mem_hand hx) h) hdf
      · rwa [State.goto_of_ne heq]
  · exact State.forall_goto (P := fun d q => q.lined = true → d ∈ s.waiters.map Parker.fiber)
      (fun h => hI.lined f (hlined h)) fun d _ => hI.lined d
  · refine State.forall_goto (P := fun d q => q.asleep = true →
      Reached Pc.toWake (s.waiters.map Parker.fiber) s.credit (s.goto f p).pc d) (fun h => ?_) fun d _ => hreached d
    rcases hsleep h with h | h
    · exact hreached f h
    · exact .inl h
  · exact State.forall_goto (P := fun d q => Terms kind s.lock.count s.now (s.entry d) q) hterms
      fun d _ => hI.terms d

theorem Inv.turn {w : Wait} {k : ℕ} {x y : Stage} (hpc : s.pc f = .round w k x)
    (hholds : y.holds = true → s.lock.holder = some f) (hhandle : y.handle = true → x.handle = true)
    (hlined : y.lined = true → x.lined = true)
    (hsleep : y.asleep = true → x.asleep = true ∨ f ∈ s.waiters.map Parker.fiber) :
    Inv kind (s.goto f (.round w k y)) := by
  have hfits := hI.fits f
  have hterms := hI.terms f
  rw [hpc] at hfits hterms
  refine hI.goto hholds (hfits.move rfl rfl (fun _ => id) (fun j hj => ?_) rfl) nofun ?_ ?_ nofun ?_ ?_ ?_ ?_
  · simp only [Pc.handle] at hj ⊢
    split at hj
    next hy => rwa [if_pos (hhandle hy)]
    next => cases hj
  · exact fun _ => by rw [hpc]; rfl
  · rw [hpc]
    exact fun j hj => .inl hj
  · rw [hpc]
    exact nofun
  · rw [hpc]
    exact hlined
  · rw [hpc]
    exact hsleep
  · exact hterms.move nofun (fun _ => id) (fun _ => id) rfl rfl

theorem Inv.credit {c : ℕ} (hf : (s.pc f).asleep = false) :
    Inv kind { s with credit := update s.credit f c } := by
  refine { hI with reached := fun d hd => ?_ }
  have hdf : d ≠ f := by
    rintro rfl
    rw [show (s.pc d).asleep = true from hd] at hf
    cases hf
  refine (hI.reached d hd).imp id (Or.imp (fun h => ?_) id)
  show 0 < update s.credit f c d
  rwa [update_of_ne hdf]

theorem Inv.wakeUp : Inv kind (s.wakeUp f) :=
  { hI with reached := fun d hd => (hI.reached d hd).poke }

section

omit [DecidableEq F]

theorem Inv.relock {l : Lock F} (hplain : kind = .lock → l.count = 0)
    (hl : ∀ d, (s.pc d).holds = true → l.holder = some d ∧ ((s.pc d).ended.isSome = true → l.count = s.lock.count)) :
    Inv kind { s with lock := l } := by
  refine { hI with holds := fun d hd => (hl d hd).1, plain := hplain, terms := fun d => ?_ }
  have hterms := hI.terms d
  refine ⟨hterms.entered, hterms.saved, hterms.due, hterms.late, fun x hx => ?_⟩
  rw [(hl d (Pc.holds_of_ended hx)).2 (by rw [hx]; rfl)]
  exact hterms.depth x hx

theorem Inv.setCount (n : ℤ) (hf : (s.pc f).holds = true) (hended : (s.pc f).ended = none) :
    Inv kind { s with lock := s.lock.setCount kind n } := by
  refine hI.relock (fun hkind => ?_) fun d hd => ?_
  · subst hkind
    exact hI.plain rfl
  · have hholder := hI.holds d hd
    cases hI.eq_of_holds hd hf
    refine ⟨?_, fun h => ?_⟩
    · cases kind <;> exact hholder
    · rw [hended] at h
      cases h

end

end

theorem Lock.acquire_eq_some {l l' : Lock F} (h : l.acquire kind f = some l') :
    (l.holder = none ∨ l.holder = some f) ∧ l'.holder = some f ∧ (kind = .lock → l'.count = l.count) := by
  unfold Lock.acquire at h
  split at h
  · split at h <;> cases h
    next hnone => exact ⟨.inl hnone, rfl, fun _ => rfl⟩
  · split at h
    next hself =>
      cases h
      exact ⟨.inr hself, hself, nofun⟩
    next =>
      split at h <;> cases h
      next hnone => exact ⟨.inl hnone, rfl, nofun⟩

theorem Inv.acquire (hI : Inv kind s) {l : Lock F} (h : s.lock.acquire kind f = some l)
    (hf : (s.pc f).holds = false) : Inv kind { s with lock := l } := by
  obtain ⟨hfree, -, hplain⟩ := Lock.acquire_eq_some h
  refine hI.relock (fun hkind => (hplain hkind).trans (hI.plain hkind)) fun d hd => ?_
  have hholder := hI.holds d hd
  rcases hfree with hnone | hself
  · rw [hnone] at hholder
    cases hholder
  · rw [hself] at hholder
    cases hholder
    rw [hf] at hd
    cases hd

omit [DecidableEq F] in
theorem Inv.release (hI : Inv kind s) (hself : s.lock.holder = some f) (hf : (s.pc f).holds = false) :
    Inv kind { s with lock := s.lock.release kind } := by
  refine hI.relock (fun hkind => ?_) fun d hd => ?_
  · subst hkind
    exact hI.plain rfl
  · have hholder := hI.holds d hd
    rw [hself] at hholder
    cases hholder
    rw [hf] at hd
    cases hd

theorem Inv.drop (hI : Inv kind s) {k : ℕ} (hrunning : (s.pc f).running = some k) (hhandle : (s.pc f).handle = none) :
    Inv kind { s with gone := update s.gone ⟨f, k⟩ true } := by
  refine { hI with fits := fun d => ?_ }
  by_cases hdf : d = f
  · subst hdf
    have hfits := hI.fits d
    refine ⟨hfits.queued, hfits.counted, hfits.settled, hfits.won, hfits.outcome, hfits.ended, hfits.known,
      fun j hj => ?_, fun j hj => ?_⟩
    · obtain ⟨hremoved, hreturns, hgone⟩ := hfits.fresh j hj
      refine ⟨hremoved, hreturns, ?_⟩
      have hlt := hfits.known k hrunning
      have hjk : (⟨d, j⟩ : Parker F) ≠ ⟨d, k⟩ := by
        intro heq
        cases heq
        exact absurd hj (Nat.not_le_of_lt hlt)
      exact (update_of_ne hjk ..).trans hgone
    · rw [show (s.pc d).handle = some j from hj] at hhandle
      cases hhandle
  · refine (hI.fits d).congr (fun _ => Iff.rfl) (fun _ => Iff.rfl) (fun _ _ => Iff.rfl) fun j => ?_
    exact update_of_ne (fun h => hdf (congrArg Parker.fiber h)) ..

end Steps

end Runloom.CoCondition
