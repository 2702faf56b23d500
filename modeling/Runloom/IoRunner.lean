import Runloom.Transition.System

/-!
# Readers and writers of the event loop

Model of `_pg_set_io`, `_pg_clear_io`, `_pg_kick_io` and `_pg_io_runner`.  All of them run on the thread of the loop:
a call is one step, which may come while a callback runs, and a runner goes on from one look at its record, wait or
callback to the next.  `_wait_fd` returns any readiness, or raises `CancelledError`.

`removed` and `invoked` are ghost: the handles that a call has removed or replaced, and the handles that were invoked,
each with whether it was one of these.
-/

namespace Runloom.IoRunner

open Transition

inductive Evt where
  | read
  | write
deriving DecidableEq

/-- What `_wait_fd` returns. -/
structure Ready where
  read : Bool
  write : Bool
deriving DecidableEq

def Ready.bit (b : Ready) : Evt → Bool
  | .read => b.read
  | .write => b.write

/-- A state record: the handles under `"r"` and `"w"`, and the runner under `"g"`. -/
structure Record where
  slot : Evt → Option ℕ
  g : Option ℕ

inductive Pc where
  | top
  | waiting
  | serve (e : Evt) (ready : Ready)
  | inside (e : Evt) (ready : Ready)
  | yielded
  | ended
deriving DecidableEq

structure Runner (D : Type*) where
  fd : D
  record : ℕ
  pc : Pc

structure State (D : Type*) where
  io : D → Option ℕ
  record : ℕ → Record
  records : ℕ
  runners : List (Runner D)
  cancelled : ℕ → Bool
  handles : ℕ
  removed : ℕ → Bool
  invoked : List (ℕ × Bool)

/-- A runner goes on, its wait ends, or its callback does. `raised` is what gets out of `_run`: `KeyboardInterrupt`
and `SystemExit`. -/
inductive Event where
  | goes
  | ready (b : Ready)
  | cancelled
  | returned
  | raised
deriving DecidableEq

/-- `started` says that a fiber can be created, if the call needs one. -/
inductive Action (D : Type*) where
  | add (fd : D) (e : Evt) (started : Bool)
  | remove (fd : D) (e : Evt) (started : Bool)
  | runner (k : ℕ) (ev : Event)

variable {D : Type*}

def Pc.after (e : Evt) (ready : Ready) : Pc :=
  match e with
  | .read => .serve .write ready
  | .write => .yielded

def State.setPc (s : State D) (k : ℕ) (r : Runner D) (pc : Pc) : State D :=
  { s with runners := s.runners.set k { r with pc := pc } }

def State.setRecord (s : State D) (i : ℕ) (st : Record) : State D :=
  { s with record := update s.record i st }

/-- `_cancelled` of a handle that a call takes out of its slot. -/
def State.drop (s : State D) (h : ℕ) : State D :=
  { s with cancelled := update s.cancelled h true, removed := update s.removed h true }

/-- `v` takes the place of the handle in a slot. -/
def State.fill (s : State D) (i : ℕ) (e : Evt) (v : Option ℕ) : State D :=
  let t := match (s.record i).slot e with
    | some old => s.drop old
    | none => s
  t.setRecord i { s.record i with slot := update (s.record i).slot e v }

def Record.empty (st : Record) : Prop :=
  st.slot .read = none ∧ st.slot .write = none

instance (st : Record) : Decidable st.empty :=
  inferInstanceAs (Decidable (_ ∧ _))

def State.kick (s : State D) (fd : D) (i : ℕ) (started : Bool) : State D :=
  match (s.record i).g with
  | some k =>
    match s.runners[k]? with
    | some r => if r.pc = .waiting then s.setPc k r .top else s
    | none => s
  | none =>
    if ¬(s.record i).empty ∧ started then
      { s.setRecord i { s.record i with g := some s.runners.length } with
        runners := s.runners ++ [⟨fd, i, .top⟩] }
    else s

def State.put (s : State D) (fd : D) (i : ℕ) (e : Evt) (started : Bool) : State D :=
  { s.fill i e (some s.handles) with handles := s.handles + 1 }.kick fd i started

section

variable [DecidableEq D]

/-- The record of `fd`, which is created if there is none. -/
def State.open (s : State D) (fd : D) : ℕ × State D :=
  match s.io fd with
  | some i => (i, s)
  | none =>
    (s.records, { s.setRecord s.records ⟨fun _ => none, none⟩ with
      io := update s.io fd (some s.records)
      records := s.records + 1 })

def State.setIo (s : State D) (fd : D) (e : Evt) (started : Bool) : State D :=
  (s.open fd).2.put fd (s.open fd).1 e started

/-- `self._io.pop(fd, None)` of a record without handles. -/
def State.pop (s : State D) (fd : D) (i : ℕ) : State D :=
  if (s.record i).empty then { s with io := update s.io fd none } else s

def State.clearIo (s : State D) (fd : D) (e : Evt) (started : Bool) : State D :=
  match s.io fd with
  | none => s
  | some i =>
    if (s.record i).slot e = none then s
    else ((s.fill i e none).pop fd i).kick fd i started

end

/-- The handle of a slot, unless it is cancelled. -/
def State.active (s : State D) (i : ℕ) (e : Evt) : Option ℕ :=
  ((s.record i).slot e).filter fun h => !s.cancelled h

def State.runnerStep (s : State D) (k : ℕ) (r : Runner D) : Event → Option (State D)
  | .goes =>
    match r.pc with
    | .top =>
      if s.active r.record .read = none ∧ s.active r.record .write = none then
        some ((s.setRecord r.record { s.record r.record with g := none }).setPc k r .ended)
      else some (s.setPc k r .waiting)
    | .serve e b =>
      match if b.bit e then s.active r.record e else none with
      | some h => some { s.setPc k r (.inside e b) with invoked := (h, s.removed h) :: s.invoked }
      | none => some (s.setPc k r (.after e b))
    | .yielded => some (s.setPc k r .top)
    | _ => none
  | .ready b => if r.pc = .waiting then some (s.setPc k r (.serve .read b)) else none
  | .cancelled => if r.pc = .waiting then some (s.setPc k r .top) else none
  | .returned =>
    match r.pc with
    | .inside e b => some (s.setPc k r (.after e b))
    | _ => none
  | .raised =>
    match r.pc with
    -- the record keeps the runner
    | .inside _ _ => some (s.setPc k r .ended)
    | _ => none

def step [DecidableEq D] (s : State D) : Action D → Option (State D)
  | .add fd e started => some (s.setIo fd e started)
  | .remove fd e started => some (s.clearIo fd e started)
  | .runner k ev => s.runners[k]?.bind fun r => s.runnerStep k r ev

structure Init (s : State D) : Prop where
  io : ∀ fd, s.io fd = none
  record : ∀ i, s.record i = ⟨fun _ => none, none⟩
  runners : s.runners = []
  cancelled : ∀ h, s.cancelled h = false
  removed : ∀ h, s.removed h = false
  invoked : s.invoked = []

def ioRunner (D : Type*) [DecidableEq D] : System (State D) (Action D) where
  init := Init
  step := step

/-! ## The slots -/

variable {s s' : State D} {i j k h : ℕ} {d e : Evt} {fd : D} {r : Runner D} {pc : Pc} {x : Option ℕ}

/-- A handle that was removed is cancelled, and none of these was invoked after that. -/
structure Silent (s : State D) : Prop where
  flag : ∀ h, s.removed h = true → s.cancelled h = true
  log : ∀ e ∈ s.invoked, e.2 = false

/-- Records with a handle are the current ones of their descriptors, and their handles are not cancelled. -/
structure Slots (s : State D) : Prop where
  lt : ∀ i e h, (s.record i).slot e = some h → h < s.handles
  inj : ∀ i j e d h, (s.record i).slot e = some h → (s.record j).slot d = some h → i = j ∧ e = d
  live : ∀ i e h, (s.record i).slot e = some h → s.cancelled h = false
  fresh : ∀ h, s.handles ≤ h → s.cancelled h = false
  current : ∀ i e h, (s.record i).slot e = some h → ∃ fd, s.io fd = some i
  own : ∀ fd fd' i, s.io fd = some i → s.io fd' = some i → fd = fd'
  known : ∀ fd i, s.io fd = some i → i < s.records

theorem Silent.drop (hS : Silent s) : Silent (s.drop h) where
  flag x hx := by
    simp only [State.drop] at hx ⊢
    by_cases hxh : x = h
    · rw [hxh, update_self]
    · rw [update_of_ne hxh] at hx ⊢
      exact hS.flag x hx
  log := hS.log

theorem Slots.congr (hS : Slots s) (hslot : ∀ i, (s'.record i).slot = (s.record i).slot) (hio : s'.io = s.io := by rfl)
    (hrecords : s'.records = s.records := by rfl) (hc : s'.cancelled = s.cancelled := by rfl)
    (hh : s'.handles = s.handles := by rfl) : Slots s' := by
  obtain ⟨h1, h2, h3, h4, h5, h6, h7⟩ := hS
  constructor <;> simp only [hio, hslot, hrecords, hc, hh] <;> assumption

theorem Record.empty_iff {st : Record} : st.empty ↔ ∀ e, st.slot e = none :=
  ⟨fun h e => by cases e <;> simp [h.1, h.2], fun h => ⟨h .read, h .write⟩⟩

theorem slot_fill {v : Option ℕ} (hs : ((s.fill i e v).record j).slot d = some h) :
    j = i ∧ d = e ∧ v = some h ∨ ¬(j = i ∧ d = e) ∧ (s.record j).slot d = some h := by
  have hrec : (s.fill i e v).record = update s.record i { s.record i with slot := update (s.record i).slot e v } := by
    rw [State.fill]
    split <;> rfl
  rw [hrec] at hs
  by_cases hj : j = i
  · subst hj
    rw [update_self] at hs
    dsimp only at hs
    by_cases hd : d = e
    · subst hd
      rw [update_self] at hs
      exact .inl ⟨rfl, rfl, hs⟩
    · rw [update_of_ne hd] at hs
      exact .inr ⟨fun h => hd h.2, hs⟩
  · rw [update_of_ne hj] at hs
    exact .inr ⟨fun h => hj h.1, hs⟩

theorem cancelled_fill {v : Option ℕ} (hc : (s.fill i e v).cancelled h = true) :
    s.cancelled h = true ∨ (s.record i).slot e = some h := by
  rw [State.fill] at hc
  split at hc
  next old hold =>
    simp only [State.setRecord, State.drop] at hc
    by_cases hh : h = old
    · exact .inr (hh ▸ hold)
    · rw [update_of_ne hh] at hc
      exact .inl hc
  next => exact .inl hc

/-- The handle that takes a place is new, and the one that had it is cancelled. -/
theorem Slots.fill (hS : Slots s) {v : Option ℕ} {n : ℕ} (hv : ∀ h, v = some h → h = s.handles ∧ h < n)
    (hn : s.handles ≤ n) (hio : v ≠ none → ∃ fd, s.io fd = some i) :
    Slots { s.fill i e v with handles := n } := by
  have hfields : (s.fill i e v).io = s.io ∧ (s.fill i e v).records = s.records := by
    rw [State.fill]
    split <;> exact ⟨rfl, rfl⟩
  constructor
  case lt =>
    intro j d h hs
    rcases slot_fill hs with ⟨-, -, hvh⟩ | ⟨-, hs⟩
    · exact (hv h hvh).2
    · exact Nat.lt_of_lt_of_le (hS.lt j d h hs) hn
  case inj =>
    intro j j' d d' h hs hs'
    have hnew : v = some h → ∀ j d, (s.record j).slot d ≠ some h := fun hvh j d hs =>
      absurd ((hv h hvh).1 ▸ hS.lt j d h hs) (Nat.lt_irrefl _)
    rcases slot_fill hs with ⟨hj, hd, hvh⟩ | ⟨-, hold⟩ <;> rcases slot_fill hs' with ⟨hj', hd', hvh'⟩ | ⟨-, hold'⟩
    · exact ⟨hj.trans hj'.symm, hd.trans hd'.symm⟩
    · exact absurd hold' (hnew hvh _ _)
    · exact absurd hold (hnew hvh' _ _)
    · exact hS.inj j j' d d' h hold hold'
  case live =>
    intro j d h hs
    by_contra hc
    rcases cancelled_fill (v := v) (eq_true_of_ne_false hc) with hc | hc <;>
      rcases slot_fill hs with ⟨-, -, hvh⟩ | ⟨hne, hs⟩
    · rw [hS.fresh h (Nat.le_of_eq (hv h hvh).1.symm)] at hc
      cases hc
    · rw [hS.live j d h hs] at hc
      cases hc
    · exact absurd ((hv h hvh).1 ▸ hS.lt i e h hc) (Nat.lt_irrefl _)
    · exact hne (hS.inj j i d e h hs hc)
  case fresh =>
    intro h hh
    by_contra hc
    rcases cancelled_fill (v := v) (eq_true_of_ne_false hc) with hc | hc
    · rw [hS.fresh h (Nat.le_trans hn hh)] at hc
      cases hc
    · exact absurd (hS.lt _ _ _ hc) (Nat.not_lt.mpr (Nat.le_trans hn hh))
  case current =>
    intro j d h hs
    simp only [hfields.1]
    rcases slot_fill hs with ⟨rfl, -, hvh⟩ | ⟨-, hs⟩
    · exact hio (by rw [hvh]; exact nofun)
    · exact hS.current j d h hs
  case own => simpa only [hfields.1] using hS.own
  case known => simpa only [hfields.1, hfields.2] using hS.known

/-! ## The runners -/

/-- The record that the runner `k` works on, if it is not over. -/
def State.works (s : State D) (k : ℕ) : Option ℕ :=
  s.runners[k]?.bind fun r => if r.pc = .ended then none else some r.record

/-- The record of a live runner has it, and a current record, but for `x`, has a handle and a runner. -/
structure Runs (s : State D) (x : Option ℕ) : Prop where
  paired : ∀ i k, (s.record i).g = some k ↔ s.works k = some i
  known : ∀ k i, s.works k = some i → i < s.records
  served : ∀ fd i, s.io fd = some i → some i ≠ x → (s.record i).g ≠ none
  full : ∀ fd i, s.io fd = some i → some i ≠ x → ¬(s.record i).empty

theorem works_of_pc (hk : s.runners[k]? = some r) (hr : r.pc = pc) (hpc : pc ≠ .ended) : s.works k = some r.record := by
  rw [State.works, hk, Option.bind_some, if_neg (hr ▸ hpc)]

theorem works_setPc (hk : s.runners[k]? = some r) (pc : Pc) :
    (s.setPc k r pc).works = update s.works k (if pc = .ended then none else some r.record) := by
  have hlt : k < s.runners.length := (List.getElem?_eq_some_iff.mp hk).1
  funext j
  by_cases hj : j = k
  · rw [hj, update_self, State.works, State.setPc, List.getElem?_set_self hlt, Option.bind_some]
  · rw [update_of_ne hj, State.works, State.setPc, List.getElem?_set_ne (Ne.symm hj), State.works]

theorem Runs.setPc {pc' : Pc} (hR : Runs s x) (hk : s.runners[k]? = some r) (hr : r.pc = pc) (hlive : pc ≠ .ended)
    (hpc : pc' ≠ .ended) : Runs (s.setPc k r pc') x := by
  have hw : (s.setPc k r pc').works = s.works := by
    rw [works_setPc hk, if_neg hpc, ← works_of_pc hk hr hlive, Function.update_eq_self]
  exact ⟨hw ▸ hR.paired, hw ▸ hR.known, hR.served, hR.full⟩

/-- A record and a runner come together, or part. -/
theorem paired_update {f g : ℕ → Option ℕ} (h : ∀ i k, f i = some k ↔ g k = some i)
    (hik : f i = none ∧ g k = none ∨ f i = some k) (b : Bool) (j m : ℕ) :
    update f i (if b then some k else none) j = some m ↔ update g k (if b then some i else none) m = some j := by
  have hf : ∀ m, f i = some m → m = k := fun m hm => by
    rcases hik with ⟨hi, -⟩ | hi
    · rw [hi] at hm
      cases hm
    · exact Option.some.inj (hm.symm.trans hi)
  have hg : ∀ j, g k = some j → j = i := fun j hj => by
    rcases hik with ⟨-, hk⟩ | hi
    · rw [hk] at hj
      cases hj
    · exact Option.some.inj (hj.symm.trans ((h i k).mp hi))
  by_cases hj : j = i
  · by_cases hm : m = k
    · cases b <;> simp [hj, hm]
    · have : g m ≠ some i := fun hgm => hm (hf m ((h i m).mpr hgm))
      cases b <;> simp [hj, hm, this, Ne.symm hm]
  · by_cases hm : m = k
    · have : f j ≠ some k := fun hfj => hj (hg j ((h j k).mp hfj))
      cases b <;> simp [hj, hm, this, Ne.symm hj]
    · simp only [update_of_ne hj, update_of_ne hm]
      exact h j m

theorem g_setRecord (s : State D) (i : ℕ) (g : Option ℕ) :
    (fun j => ((s.setRecord i { s.record i with g := g }).record j).g) = update (fun j => (s.record j).g) i g := by
  funext j
  by_cases hj : j = i <;> simp [State.setRecord, hj]

/-- A runner leaves its record. -/
theorem Runs.leave (hR : Runs s none) (hk : s.runners[k]? = some r) (hr : r.pc = pc) (hlive : pc ≠ .ended)
    (hold : ∀ fd, s.io fd ≠ some r.record) :
    Runs ((s.setRecord r.record { s.record r.record with g := none }).setPc k r .ended) none := by
  have hne : ∀ fd i, s.io fd = some i →
      (s.setRecord r.record { s.record r.record with g := none }).record i = s.record i := fun fd i hi =>
    update_of_ne (fun h : i = r.record => hold fd (h ▸ hi)) _ _
  have hw := works_setPc (s := s.setRecord r.record { s.record r.record with g := none }) hk .ended
  have hpair := paired_update hR.paired (.inr ((hR.paired _ _).mpr (works_of_pc hk hr hlive))) false
  constructor
  case paired =>
    intro i j
    rw [hw]
    exact (congrFun (g_setRecord s r.record none) i) ▸ hpair i j
  case known =>
    intro j i hj
    rw [hw] at hj
    by_cases hjk : j = k
    · simp [hjk] at hj
    · rw [update_of_ne hjk] at hj
      exact hR.known j i hj
  case served =>
    intro fd i hi hx
    rw [State.setPc, hne fd i hi]
    exact hR.served fd i hi hx
  case full =>
    intro fd i hi hx
    rw [State.setPc, hne fd i hi]
    exact hR.full fd i hi hx

theorem fill_fields (s : State D) (i : ℕ) (e : Evt) (v : Option ℕ) :
    (s.fill i e v).io = s.io ∧ (s.fill i e v).records = s.records ∧ (s.fill i e v).runners = s.runners ∧
      (∀ j, ((s.fill i e v).record j).g = (s.record j).g) ∧ ∀ j, j ≠ i → (s.fill i e v).record j = s.record j := by
  have hg : ∀ t : State D, t.record = s.record → ∀ j,
      ((t.setRecord i { s.record i with slot := update (s.record i).slot e v }).record j).g = (s.record j).g := by
    intro t ht j
    by_cases hj : j = i
    · simp [State.setRecord, hj]
    · simp [State.setRecord, hj, ht]
  rw [State.fill]
  split
  · exact ⟨rfl, rfl, rfl, hg _ rfl, fun j hj => update_of_ne hj _ _⟩
  · exact ⟨rfl, rfl, rfl, hg s rfl, fun j hj => update_of_ne hj _ _⟩

theorem Runs.fill (hR : Runs s x) (hx : x = none ∨ x = some i) (v : Option ℕ) (n : ℕ) :
    Runs { s.fill i e v with handles := n } (some i) := by
  obtain ⟨hio, hrec, hrun, hg, hne⟩ := fill_fields s i e v
  have hout : ∀ j, some j ≠ some i → some j ≠ x := by
    rintro j hj rfl
    rcases hx with hx | hx
    · cases hx
    · exact hj hx
  constructor
  case paired => simpa only [State.works, hrun, hg] using hR.paired
  case known => simpa only [State.works, hrun, hrec] using hR.known
  case served =>
    intro fd j hj hji
    simp only [hio, hg] at hj ⊢
    exact hR.served fd j hj (hout j hji)
  case full =>
    intro fd j hj hji
    simp only [hio] at hj ⊢
    rw [hne j fun h => hji (h ▸ rfl)]
    exact hR.full fd j hj (hout j hji)

theorem works_append (s : State D) (fd : D) (st : Record) :
    ({ s.setRecord i st with runners := s.runners ++ [⟨fd, i, .top⟩] } : State D).works =
      update s.works s.runners.length (some i) := by
  funext j
  by_cases hj : j = s.runners.length
  · rw [hj, update_self, State.works, List.getElem?_concat_length, Option.bind_some, if_neg nofun]
  · rw [update_of_ne hj, State.works, State.works, List.getElem?_append]
    split
    · rfl
    · rw [List.getElem?_eq_none (l := [_]) (by simp only [List.length_singleton]; omega),
        List.getElem?_eq_none (l := s.runners) (by omega)]

/-- The kick leaves the record with a runner, if it is current. -/
theorem Runs.kick (hR : Runs s (some i)) (hi : i < s.records) (hfull : ∀ fd, s.io fd = some i → ¬(s.record i).empty)
    {started : Bool} (hstart : started = true ∨ (s.record i).g ≠ none) : Runs (s.kick fd i started) none := by
  have hfull' : ∀ fd j, s.io fd = some j → ¬(s.record j).empty := fun fd j hj => by
    by_cases hji : j = i
    · exact hji ▸ hfull fd (hji ▸ hj)
    · exact hR.full fd j hj fun h => hji (Option.some.inj h)
  have hserved : ∀ fd j, s.io fd = some j → j ≠ i → (s.record j).g ≠ none := fun fd j hj hji =>
    hR.served fd j hj fun h => hji (Option.some.inj h)
  rw [State.kick]
  split
  next k hg =>
    have hR' : Runs s none := ⟨hR.paired, hR.known, fun fd j hj _ => by
      by_cases hji : j = i
      · rw [hji, hg]
        nofun
      · exact hserved fd j hj hji, fun fd j hj _ => hfull' fd j hj⟩
    split
    next r hr =>
      split
      next hw => exact hR'.setPc hr hw nofun nofun
      next => exact hR'
    next => exact hR'
  next hg =>
    obtain rfl : started = true := hstart.resolve_right fun h => h hg
    split
    next he =>
      have hnew : s.works s.runners.length = none := by simp [State.works]
      have hpair := paired_update hR.paired (.inl ⟨hg, hnew⟩) true
      have hslot : ∀ j, ((s.setRecord i { s.record i with g := some s.runners.length }).record j).slot =
          (s.record j).slot := fun j => by
        by_cases hj : j = i <;> simp [State.setRecord, hj]
      have hg' := g_setRecord s i (some s.runners.length)
      constructor
      case paired =>
        intro j k
        rw [works_append]
        exact (congrFun hg' j) ▸ hpair j k
      case known =>
        intro k j hk
        rw [works_append] at hk
        by_cases hkn : k = s.runners.length
        · rw [hkn, update_self] at hk
          exact Option.some.inj hk ▸ hi
        · rw [update_of_ne hkn] at hk
          exact hR.known k j hk
      case served =>
        intro fd' j hj _
        refine (congrFun hg' j).trans_ne ?_
        by_cases hji : j = i
        · rw [hji, update_self]
          nofun
        · rw [update_of_ne hji]
          exact hserved fd' j hj hji
      case full =>
        intro fd' j hj _
        simp only [Record.empty, hslot]
        exact hfull' fd' j hj
    next he =>
      have hempty : (s.record i).empty := by simpa using he
      exact ⟨hR.paired, hR.known, fun fd j hj _ => hserved fd j hj fun h => hfull fd (h ▸ hj) hempty,
        fun fd j hj _ => hfull' fd j hj⟩

/-! ## Calls and steps -/

theorem Slots.kick (hS : Slots s) (fd : D) (i : ℕ) (started : Bool) : Slots (s.kick fd i started) := by
  rw [State.kick]
  split
  · split
    · split
      · exact hS.congr fun _ => rfl
      · exact hS
    · exact hS
  · split
    · refine hS.congr fun j => ?_
      by_cases hj : j = i <;> simp [State.setRecord, hj]
    · exact hS

theorem Silent.kick (hS : Silent s) (fd : D) (i : ℕ) (started : Bool) : Silent (s.kick fd i started) := by
  rw [State.kick]
  split
  · split
    · split <;> exact ⟨hS.flag, hS.log⟩
    · exact hS
  · split <;> exact ⟨hS.flag, hS.log⟩

theorem Silent.fill (hS : Silent s) (v : Option ℕ) (n : ℕ) : Silent { s.fill i e v with handles := n } := by
  rw [State.fill]
  split
  next old _ => exact ⟨(hS.drop (h := old)).flag, hS.log⟩
  next => exact ⟨hS.flag, hS.log⟩

theorem Runs.put (hR : Runs s x) (hx : x = none ∨ x = some i) (hi : i < s.records) {started : Bool}
    (hstart : started = true ∨ (s.record i).g ≠ none) : Runs (s.put fd i e started) none := by
  obtain ⟨-, hrec, -, hg, -⟩ := fill_fields s i e (some s.handles)
  refine (hR.fill hx _ _).kick (hrec ▸ hi) (fun f _ hempty => ?_) (hstart.imp id fun h => ?_)
  · have hslot : ((s.fill i e (some s.handles)).record i).slot e = some s.handles := by
      rw [State.fill]
      split <;> simp [State.setRecord]
    rw [Record.empty_iff.mp hempty e] at hslot
    cases hslot
  · rw [hg]
    exact h

theorem Slots.of_g (hS : Slots s) (k : ℕ) (r : Runner D) (g : Option ℕ) :
    Slots ((s.setRecord i { s.record i with g := g }).setPc k r pc) := by
  refine hS.congr fun j => ?_
  by_cases hj : j = i <;> simp [State.setPc, State.setRecord, hj]

/-- A current record has a handle that is not cancelled. -/
theorem Slots.not_current (hS : Slots s) (hR : Runs s none) (h : ∀ e, s.active i e = none) (fd : D) :
    s.io fd ≠ some i := by
  intro hfd
  refine hR.full fd i hfd nofun (Record.empty_iff.mpr fun e => ?_)
  by_contra hne
  obtain ⟨n, hn⟩ := Option.ne_none_iff_exists'.mp hne
  have := h e
  rw [State.active, hn, Option.filter_some, hS.live i e n hn] at this
  cases this

theorem runnerStep_spec {ev : Event} (hk : s.runners[k]? = some r) (h : s.runnerStep k r ev = some s') (hS : Slots s)
    (hQ : Silent s) : Slots s' ∧ Silent s' ∧ (ev ≠ .raised → Runs s none → Runs s' none) := by
  have hpc : ∀ pc, Slots (s.setPc k r pc) ∧ Silent (s.setPc k r pc) := fun pc =>
    ⟨hS.congr fun _ => rfl, hQ.flag, hQ.log⟩
  cases ev with
  | goes =>
    simp only [State.runnerStep] at h
    split at h
    next hr =>
      split at h <;> cases h
      next hnone =>
        refine ⟨hS.of_g k r none, ⟨hQ.flag, hQ.log⟩, fun _ hR => hR.leave hk hr nofun ?_⟩
        exact hS.not_current hR fun e => by cases e <;> simp [hnone]
      next => exact ⟨(hpc _).1, (hpc _).2, fun _ hR => hR.setPc hk hr nofun nofun⟩
    next e b hr =>
      split at h <;> cases h
      next n hn =>
        refine ⟨hS.congr fun _ => rfl, ⟨hQ.flag, List.forall_mem_cons.mpr ⟨?_, hQ.log⟩⟩, fun _ hR => ?_⟩
        · split at hn
          · have := (Option.filter_eq_some_iff.mp hn).2
            rw [← Bool.not_eq_true]
            intro hrem
            rw [hQ.flag n hrem] at this
            cases this
          · cases hn
        · have : Runs (s.setPc k r (.inside e b)) none := hR.setPc hk hr nofun nofun
          exact ⟨this.paired, this.known, this.served, this.full⟩
      next =>
        refine ⟨(hpc _).1, (hpc _).2, fun _ hR => hR.setPc hk hr nofun ?_⟩
        cases e <;> nofun
    next hr =>
      cases h
      exact ⟨(hpc _).1, (hpc _).2, fun _ hR => hR.setPc hk hr nofun nofun⟩
    next => cases h
  | ready b | cancelled =>
    obtain ⟨hr, ⟨⟩⟩ := Option.ite_none_right_eq_some.mp h
    exact ⟨(hpc _).1, (hpc _).2, fun _ hR => hR.setPc hk hr nofun nofun⟩
  | returned =>
    simp only [State.runnerStep] at h
    split at h <;> cases h
    next e b hr =>
      refine ⟨(hpc _).1, (hpc _).2, fun _ hR => hR.setPc hk hr nofun ?_⟩
      cases e <;> nofun
  | raised =>
    simp only [State.runnerStep] at h
    split at h <;> cases h
    exact ⟨(hpc _).1, (hpc _).2, fun h => absurd rfl h⟩

theorem init_spec (h : Init s) : Slots s ∧ Silent s ∧ Runs s none := by
  refine ⟨?_, ⟨by simp [h.removed], by simp [h.invoked]⟩, ?_⟩ <;> constructor <;>
    simp [h.record, h.io, h.cancelled, h.runners, State.works]

variable [DecidableEq D]

theorem io_update {y : Option ℕ} {fd fd' : D} (h : update s.io fd y fd' = some i) :
    fd' = fd ∧ y = some i ∨ fd' ≠ fd ∧ s.io fd' = some i := by
  by_cases hf : fd' = fd
  · rw [hf, update_self] at h
    exact .inl ⟨hf, h⟩
  · rw [update_of_ne hf] at h
    exact .inr ⟨hf, h⟩

theorem Slots.open (hS : Slots s) (fd : D) : Slots (s.open fd).2 ∧ (s.open fd).2.io fd = some (s.open fd).1 := by
  rw [State.open]
  split
  next i hi => exact ⟨hS, hi⟩
  next hnone =>
    have hold : ∀ j d h, ((s.setRecord s.records ⟨fun _ => none, none⟩).record j).slot d = some h →
        (s.record j).slot d = some h := by
      intro j d h hs
      by_cases hj : j = s.records
      · simp [State.setRecord, hj] at hs
      · simpa [State.setRecord, hj] using hs
    refine ⟨⟨fun j d h hs => hS.lt j d h (hold j d h hs), ?_, fun j d h hs => hS.live j d h (hold j d h hs),
      hS.fresh, ?_, ?_, ?_⟩, update_self ..⟩
    · exact fun j j' d d' h hs hs' => hS.inj j j' d d' h (hold j d h hs) (hold j' d' h hs')
    · intro j d h hs
      obtain ⟨fd', hfd'⟩ := hS.current j d h (hold j d h hs)
      refine ⟨fd', (update_of_ne ?_ _ _).trans hfd'⟩
      rintro rfl
      rw [hnone] at hfd'
      cases hfd'
    · intro f f' j hf hf'
      rcases io_update hf with ⟨hfd, hj⟩ | ⟨-, hg⟩ <;> rcases io_update hf' with ⟨hfd', hj'⟩ | ⟨-, hg'⟩
      · exact hfd.trans hfd'.symm
      · exact absurd (Option.some.inj hj ▸ hS.known _ _ hg') (Nat.lt_irrefl _)
      · exact absurd (Option.some.inj hj' ▸ hS.known _ _ hg) (Nat.lt_irrefl _)
      · exact hS.own f f' j hg hg'
    · intro f j hf
      rcases io_update hf with ⟨-, hj⟩ | ⟨-, hf⟩
      · exact Option.some.inj hj ▸ Nat.lt_succ_self _
      · exact Nat.lt_succ_of_lt (hS.known f j hf)

theorem Runs.open (hR : Runs s none) (fd : D) :
    ∃ x, (x = none ∨ x = some (s.open fd).1) ∧ Runs (s.open fd).2 x := by
  rw [State.open]
  split
  · exact ⟨none, .inl rfl, hR⟩
  · have hne : ∀ j, j ≠ s.records → (s.setRecord s.records ⟨fun _ => none, none⟩).record j = s.record j := fun j hj =>
      update_of_ne hj _ _
    have hio : ∀ f j, update s.io fd (some s.records) f = some j → some j ≠ some s.records →
        j ≠ s.records ∧ s.io f = some j := fun f j hf hx => by
      rcases io_update hf with ⟨-, hj⟩ | ⟨-, hf⟩
      · exact absurd hj.symm hx
      · exact ⟨fun h => hx (h ▸ rfl), hf⟩
    refine ⟨some s.records, .inr rfl, fun i k => ?_, fun k i hk => Nat.lt_succ_of_lt (hR.known k i hk),
      fun f j hf hx => ?_, fun f j hf hx => ?_⟩
    · by_cases hi : i = s.records
      · have : s.works k ≠ some i := fun h => Nat.lt_irrefl _ (hi ▸ hR.known k i h)
        simpa [State.setRecord, hi] using hi ▸ this
      · simp only [hne i hi]
        exact hR.paired i k
    · obtain ⟨hj, hf⟩ := hio f j hf hx
      simp only [hne j hj]
      exact hR.served f j hf nofun
    · obtain ⟨hj, hf⟩ := hio f j hf hx
      simp only [hne j hj]
      exact hR.full f j hf nofun

theorem Slots.setIo (hS : Slots s) (fd : D) (e : Evt) (started : Bool) : Slots (s.setIo fd e started) := by
  obtain ⟨hS', hio⟩ := hS.open fd
  exact (hS'.fill (fun h hh => ⟨(Option.some.inj hh).symm, Option.some.inj hh ▸ Nat.lt_succ_self _⟩)
    (Nat.le_succ _) fun _ => ⟨fd, hio⟩).kick fd _ started

theorem Silent.setIo (hS : Silent s) (fd : D) (e : Evt) (started : Bool) : Silent (s.setIo fd e started) := by
  have hopen : Silent (s.open fd).2 := by
    rw [State.open]
    split <;> exact ⟨hS.flag, hS.log⟩
  exact (hopen.fill _ _).kick fd _ started

/-- No fiber that is needed cannot be created, and no callback lets an exception out of its handle. -/
def Orderly (s : State D) : Action D → Prop
  | .add fd _ started => started = true ∨ ((s.io fd).any fun i => (s.record i).g.isSome) = true
  | .remove _ _ _ => True
  | .runner _ ev => ev ≠ .raised

instance (s : State D) : DecidablePred (Orderly s)
  | .add _ _ _ => inferInstanceAs (Decidable (_ ∨ _))
  | .remove _ _ _ => .isTrue trivial
  | .runner _ _ => inferInstanceAs (Decidable (_ ≠ _))

theorem Runs.setIo (hR : Runs s none) (hS : Slots s) {started : Bool} (hO : Orderly s (.add fd e started)) :
    Runs (s.setIo fd e started) none := by
  obtain ⟨hS', hio⟩ := hS.open fd
  obtain ⟨x, hx, hR'⟩ := hR.open fd
  refine hR'.put hx (hS'.known fd _ hio) (hO.imp id fun h => ?_)
  rw [State.open]
  split
  next i hi =>
    rw [hi, Option.any_some] at h
    exact Option.isSome_iff_ne_none.mp h
  next hnone =>
    rw [hnone] at h
    cases h

theorem io_pop {f : D} (h : (s.pop fd i).io f = some j) : s.io f = some j := by
  rw [State.pop] at h
  split at h
  · exact (io_update h).elim (fun h => nomatch h.2) And.right
  · exact h

theorem pop_eq (s : State D) (fd : D) (i : ℕ) : s.pop fd i = { s with io := (s.pop fd i).io } := by
  rw [State.pop]
  split <;> rfl

theorem Slots.pop (hS : Slots s) (hi : s.io fd = some i) : Slots (s.pop fd i) := by
  rw [pop_eq]
  refine ⟨hS.lt, hS.inj, hS.live, hS.fresh, fun j d h hs => ?_, fun f f' j hf hf' =>
    hS.own f f' j (io_pop hf) (io_pop hf'), fun f j hf => hS.known f j (io_pop hf)⟩
  obtain ⟨f, hf⟩ := hS.current j d h hs
  refine ⟨f, ?_⟩
  rw [State.pop]
  split
  next hempty =>
    refine (update_of_ne ?_ _ _).trans hf
    rintro rfl
    rw [hi] at hf
    cases hf
    rw [Record.empty_iff.mp hempty d] at hs
    cases hs
  next => exact hf

/-- A record that is not dropped has a handle. -/
theorem Slots.full_pop (hS : Slots s) (hi : s.io fd = some i) {f : D} (hf : (s.pop fd i).io f = some i) :
    ¬(s.record i).empty := by
  rw [State.pop] at hf
  split at hf
  next =>
    rcases io_update hf with ⟨-, h⟩ | ⟨hne, h⟩
    · cases h
    · exact absurd (hS.own f fd i h hi) hne
  next h => exact h

theorem Runs.pop (hR : Runs s x) (fd : D) (i : ℕ) : Runs (s.pop fd i) x := by
  rw [pop_eq]
  exact ⟨hR.paired, hR.known, fun f j hf => hR.served f j (io_pop hf), fun f j hf => hR.full f j (io_pop hf)⟩

theorem clearIo_spec (hS : Slots s) (hQ : Silent s) (fd : D) (e : Evt) (started : Bool) :
    Slots (s.clearIo fd e started) ∧ Silent (s.clearIo fd e started) ∧
      (Runs s none → Runs (s.clearIo fd e started) none) := by
  rw [State.clearIo]
  split
  next => exact ⟨hS, hQ, id⟩
  next i hi =>
    split
    · exact ⟨hS, hQ, id⟩
    · obtain ⟨hio, hrec, -, hg, -⟩ := fill_fields s i e none
      have heq : { s.fill i e none with handles := s.handles } = s.fill i e none := by
        rw [State.fill]
        split <;> rfl
      have hS' : Slots (s.fill i e none) := heq ▸ hS.fill nofun (Nat.le_refl _) (absurd rfl)
      have hQ' : Silent (s.fill i e none) := heq ▸ hQ.fill none s.handles
      have hi' : (s.fill i e none).io fd = some i := hio ▸ hi
      have hpop : Silent ((s.fill i e none).pop fd i) := by
        rw [pop_eq]
        exact ⟨hQ'.flag, hQ'.log⟩
      refine ⟨(hS'.pop hi').kick fd i started, hpop.kick fd i started, fun hR => ?_⟩
      have hR' : Runs (s.fill i e none) (some i) := heq ▸ hR.fill (.inl rfl) none s.handles
      refine (hR'.pop fd i).kick ?_ (fun f hf => ?_) (.inr ?_) <;> rw [pop_eq]
      · exact hrec ▸ hS.known fd i hi
      · exact hS'.full_pop hi' hf
      · exact hg i ▸ hR.served fd i hi nofun

theorem step_spec {a : Action D} (h : step s a = some s') (hS : Slots s) (hQ : Silent s) :
    Slots s' ∧ Silent s' ∧ (Orderly s a → Runs s none → Runs s' none) := by
  cases a with
  | add fd e started =>
    cases h
    exact ⟨hS.setIo fd e started, hQ.setIo fd e started, fun hO hR => hR.setIo hS hO⟩
  | remove fd e started =>
    cases h
    obtain ⟨hS', hQ', hR'⟩ := clearIo_spec hS hQ fd e started
    exact ⟨hS', hQ', fun _ => hR'⟩
  | runner k ev =>
    obtain ⟨r, hk, h⟩ := Option.bind_eq_some_iff.mp h
    exact runnerStep_spec hk h hS hQ

/-- A callback is not invoked once it was removed or replaced. If no fiber that is needed cannot be created, and no
callback lets an exception out, a descriptor with a callback has one runner on its record. -/
theorem callbacks_served : (∀ s : State D, (ioRunner D).Reachable s → ∀ e ∈ s.invoked, e.2 = false) ∧
    ∀ s : State D, (ioRunner D).ReachableWith Orderly s → ∀ fd i e h, s.io fd = some i →
      (s.record i).slot e = some h →
      ∃! k, s.works k = some i := by
  constructor
  · intro s hr
    have hinv : Slots s ∧ Silent s := hr.invariant (P := fun s => Slots s ∧ Silent s)
      (fun s hi => ⟨(init_spec hi).1, (init_spec hi).2.1⟩)
      fun s a s' hI _ hs => ⟨(step_spec hs hI.1 hI.2).1, (step_spec hs hI.1 hI.2).2.1⟩
    exact hinv.2.log
  · intro s hr fd i e h hfd _
    obtain ⟨-, -, hR⟩ : Slots s ∧ Silent s ∧ Runs s none :=
      hr.invariant (P := fun s => Slots s ∧ Silent s ∧ Runs s none) (fun s hi => init_spec hi)
      fun s a s' hI hO hs =>
        have hs' := step_spec hs hI.1 hI.2.1
        ⟨hs'.1, hs'.2.1, hs'.2.2 hO hI.2.2⟩
    obtain ⟨k, hk⟩ := Option.ne_none_iff_exists'.mp (hR.served fd i hfd nofun)
    refine ⟨k, (hR.paired i k).mp hk, fun j hj => ?_⟩
    exact Option.some.inj (((hR.paired i j).mpr hj).symm.trans hk)

def idle : State ℕ where
  io _ := none
  record _ := ⟨fun _ => none, none⟩
  records := 0
  runners := []
  cancelled _ := false
  handles := 0
  removed _ := false
  invoked := []

theorem init_idle : Init idle :=
  ⟨fun _ => rfl, fun _ => rfl, rfl, fun _ => rfl, fun _ => rfl, rfl⟩

/-- A reader replaces itself by a writer: its record is dropped under the runner. -/
theorem callbacks_served_replaced : ∃ s : State ℕ, (ioRunner ℕ).ReachableWith Orderly s ∧ s.runners.length = 2 ∧
      ∃! k, s.works k = some 1 := by
  obtain ⟨s, hr, hlen, hio, hslot⟩ := (ioRunner ℕ).reachesWith Orderly
    (fun s => s.runners.length = 2 ∧ s.io 3 = some 1 ∧ (s.record 1).slot .write = some 1)
    [.add 3 .read true, .runner 0 .goes, .runner 0 (.ready ⟨true, false⟩), .runner 0 .goes, .remove 3 .read true,
      .add 3 .write true] init_idle (by decide +kernel)
  exact ⟨s, hr, hlen, callbacks_served.2 s hr 3 1 .write 1 hio hslot⟩

/-- `KeyboardInterrupt` gets out of a reader: its runner is gone, and the record still has it. -/
theorem reader_left_alone :
    ∃ s : State ℕ, (ioRunner ℕ).Reachable s ∧ s.io 3 = some 0 ∧ (s.record 0).slot .read = some 0 ∧
      ¬∃! k, s.works k = some 0 := by
  obtain ⟨s, hr, hio, hslot, hall⟩ := (ioRunner ℕ).reaches
    (fun s => s.io 3 = some 0 ∧ (s.record 0).slot .read = some 0 ∧ ∀ r ∈ s.runners, r.pc = .ended)
    [.add 3 .read true, .runner 0 .goes, .runner 0 (.ready ⟨true, false⟩), .runner 0 .goes, .runner 0 .raised]
    init_idle (by decide +kernel)
  refine ⟨s, hr, hio, hslot, ?_⟩
  rintro ⟨k, hk, -⟩
  obtain ⟨r, hr, h⟩ := Option.bind_eq_some_iff.mp hk
  rw [if_pos (hall r (List.mem_of_getElem? hr))] at h
  cases h

end Runloom.IoRunner
