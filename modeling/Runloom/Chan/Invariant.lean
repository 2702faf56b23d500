import Mathlib.Data.List.Nodup
import Runloom.Chan.Model

/-!
# The channel invariant

What the record of events says about each channel and each call, and the invariant that ties it to
the rings, the waiter queues and the waiter slots.  Its parts are predicates on the fields of the
state they are about: the queues (`QueueOk`), the ring of a channel and the values that went through
it (`Flow`), the order of the plain senders (`Fifo`), and what each call has moved so far (`Own`).
-/

namespace Runloom.Chan

open Transition

variable {H C V : Type*}

/-! ## Reading the record -/

section Log

variable [DecidableEq H] [DecidableEq C]

def Event.acceptedOn (ch : H) : Event H C V → Option (Option (Item C V))
  | .accepted ch' _ x _ => if ch' = ch then some x else none
  | _ => none

def Event.handedOn (ch : H) : Event H C V → Option (Option (Item C V))
  | .handed ch' _ x => if ch' = ch then some x else none
  | _ => none

def Event.parksOn (ch : H) : Event H C V → Option C
  | .parks ch' c => if ch' = ch then some c else none
  | _ => none

def Event.takenOn (ch : H) : Event H C V → Option C
  | .accepted ch' (.plain c) _ true => if ch' = ch then some c else none
  | _ => none

def Event.movedBy (c : C) : Event H C V → Option (ℕ × Got C V)
  | .accepted _ tx _ _ => if tx.call = c then some (tx.index, .sent) else none
  | .handed _ rx x => if rx.call = c then some (rx.index, .value x) else none
  | .parks _ _ => none

def accepted (log : List (Event H C V)) (ch : H) : List (Option (Item C V)) :=
  log.filterMap (Event.acceptedOn ch)

def handed (log : List (Event H C V)) (ch : H) : List (Option (Item C V)) :=
  log.filterMap (Event.handedOn ch)

def parkedSenders (log : List (Event H C V)) (ch : H) : List C :=
  log.filterMap (Event.parksOn ch)

def takenSenders (log : List (Event H C V)) (ch : H) : List C :=
  log.filterMap (Event.takenOn ch)

def moved (log : List (Event H C V)) (c : C) : List (ℕ × Got C V) :=
  log.filterMap (Event.movedBy c)

end Log

/-! ## Operations and their waiters -/

def opOf (calls : C → Call H V) : Waiter C → Option (Case H V)
  | .plain c =>
    match calls c with
    | .send ch v _ => some ⟨ch, .send v⟩
    | .recv ch _ => some ⟨ch, .recv⟩
    | _ => none
  | .case c i =>
    match calls c with
    | .select cases _ => cases[i]?
    | _ => none

/-- A waiter that may be in a queue while its call is at `pc`. -/
def LinkedAt (pc : CallPc C V) : Waiter C → Prop
  | .plain _ => pc = .parked
  | .case _ i =>
    match pc with
    | .install j => i < j
    | .abort j => i < j
    | .yielded => True
    | .load => True
    | .evict j (.finish k) => j ≤ i ∧ i ≠ k
    | .evict j _ => j ≤ i
    | _ => False

structure QueueOk (calls : C → Call H V) (cap : H → ℕ) (chan : H → Channel C V)
    (fired : C → Option ℕ) (slot : Waiter C → Slot C V) (call : C → CallPc C V) : Prop where
  op : ∀ ch side w, w ∈ (chan ch).waiters side → ∃ k, opOf calls w = some k ∧ k.ch = ch ∧ k.op.side = side
  linked : ∀ ch side w, w ∈ (chan ch).waiters side → LinkedAt (call w.call) w
  fresh : ∀ ch side w k, w ∈ (chan ch).waiters side → claimable fired w = true →
    opOf calls w = some k → slot w = State.freshSlot w k.op
  nodup : ∀ ch side, ((chan ch).waiters side).Nodup
  claimed : ∀ ch side c i, fired c = some i → .case c i ∉ (chan ch).waiters side
  full : ∀ ch w, w ∈ (chan ch).waiters .send → claimable fired w = true → (chan ch).len = cap ch
  empty : ∀ ch w, w ∈ (chan ch).waiters .recv → claimable fired w = true → (chan ch).len = 0
  pair : ∀ ch w w', w ∈ (chan ch).waiters .send → w' ∈ (chan ch).waiters .recv →
    claimable fired w = true → claimable fired w' = true → ∃ c i j, w = .case c i ∧ w' = .case c j
  closed : ∀ ch side, (chan ch).closed = true → (chan ch).waiters side = []

/-- The ring of a channel holds what was accepted and not yet handed on. -/
structure Flow [DecidableEq H] (cap : H → ℕ) (ch : H) (k : Channel C V) (log : List (Event H C V)) : Prop where
  len : k.len ≤ cap ch
  head : 0 < cap ch → k.head < cap ch
  tail : 0 < cap ch → k.tail = (k.head + k.len) % cap ch
  conserve : handed log ch ++ Ring.contents k.buf (cap ch) k.head k.len = accepted log ch

def plains : List (Waiter C) → List C :=
  List.filterMap fun w =>
    match w with
    | .plain c => some c
    | .case _ _ => none

/-- Plain senders are accepted in the order they queued. -/
structure Fifo [DecidableEq H] (ch : H) (k : Channel C V) (log : List (Event H C V)) : Prop where
  order : takenSenders log ch <+: parkedSenders log ch
  rest : k.closed = false → parkedSenders log ch = takenSenders log ch ++ plains (k.waiters .send)

def EventOk (calls : C → Call H V) : Event H C V → Prop
  | .accepted ch tx x _ => ∃ v, x = some ⟨tx, v⟩ ∧ opOf calls tx = some ⟨ch, .send v⟩
  | .handed ch rx _ => opOf calls rx = some ⟨ch, .recv⟩
  | .parks _ _ => True

/-! ## What a call has moved -/

def GotOk (op : Op V) (got : Got C V) (m : List (ℕ × Got C V)) (i : ℕ) (closed : Bool) : Prop :=
  match op with
  | .send _ => got = .sent ∧ m = [(i, .sent)]
  | .recv => (∃ x, got = .value (some x)) ∧ m = [(i, got)] ∨ got = .closed ∧ m = [] ∧ closed = true

def Filled (op : Op V) (k : Slot C V) (m : List (ℕ × Got C V)) (i : ℕ) (closed : Bool) : Prop :=
  match op with
  | .send _ => k.sendResult = 0 ∧ m = [(i, .sent)] ∨ k.sendResult = -1 ∧ m = [] ∧ closed = true
  | .recv =>
    (∃ x, k.value = some x) ∧ k.ok = 1 ∧ m = [(i, .value k.value)] ∨
      k.value = none ∧ k.ok = 0 ∧ m = [] ∧ closed = true

def PlainWait (op : Op V) (k : Slot C V) (m : List (ℕ × Got C V)) (closed : Bool) : Prop :=
  k.queued = true ∧ m = [] ∨ k.queued = false ∧ Filled op k m 0 closed

def SelectWait (cases : List (Case H V)) (fired : Option ℕ) (slot : ℕ → Slot C V)
    (m : List (ℕ × Got C V)) (closed : H → Bool) : Prop :=
  match fired with
  | none => m = []
  | some k => ∃ b, cases[k]? = some b ∧ Filled b.op (slot k) m k (closed b.ch)

/-- The cases from `i` on are not installed: nobody has fired them or written to their slots. -/
def Pristine (c : C) (cases : List (Case H V)) (fired : Option ℕ) (slot : ℕ → Slot C V) (i : ℕ) :
    Prop :=
  (∀ k, fired = some k → k < i) ∧ ∀ j b, i ≤ j → cases[j]? = some b → slot j = State.freshSlot (.case c j) b.op

def PlainOk (b : Case H V) (pc : CallPc C V) (k : Slot C V) (m : List (ℕ × Got C V)) (closed : H → Bool) : Prop :=
  match pc with
  | .idle => m = []
  | .parked => PlainWait b.op k m (closed b.ch)
  | .returned (.plain got) => GotOk b.op got m 0 (closed b.ch)
  | .returned (.selected _ _) => False
  | .returned .sendClosed => m = [] ∧ closed b.ch = true
  | .returned _ => m = []
  | _ => False

def SelectOk (c : C) (cases : List (Case H V)) (pc : CallPc C V) (fired : Option ℕ)
    (slot : ℕ → Slot C V) (m : List (ℕ × Got C V)) (closed : H → Bool) : Prop :=
  match pc with
  | .idle => m = []
  | .start => m = []
  | .scan _ => m = []
  | .retry => m = []
  | .install i => SelectWait cases fired slot m closed ∧ Pristine c cases fired slot i
  | .abort _ => SelectWait cases fired slot m closed
  | .yielded => SelectWait cases fired slot m closed
  | .load => SelectWait cases fired slot m closed
  | .reload => SelectWait cases fired slot m closed
  | .evict _ .restart => m = [] ∧ fired ≠ none
  | .evict _ .reload => SelectWait cases fired slot m closed
  | .evict _ (.finish k) => fired = some k ∧ SelectWait cases fired slot m closed
  | .finish k => fired = some k ∧ SelectWait cases fired slot m closed
  | .returned (.selected k got) => ∃ b, cases[k]? = some b ∧ GotOk b.op got m k (closed b.ch)
  | .returned (.plain _) => False
  | .returned .sendClosed => m = [] ∧ ∃ b ∈ cases, b.op.side = .send ∧ closed b.ch = true
  | .returned _ => m = []
  | .parked => False

def Own [DecidableEq C] (calls : C → Call H V) (chan : H → Channel C V) (fired : C → Option ℕ)
    (slot : Waiter C → Slot C V) (call : C → CallPc C V) (log : List (Event H C V)) (c : C) : Prop :=
  match calls c with
  | .send ch v _ => PlainOk ⟨ch, .send v⟩ (call c) (slot (.plain c)) (moved log c) fun h => (chan h).closed
  | .recv ch _ => PlainOk ⟨ch, .recv⟩ (call c) (slot (.plain c)) (moved log c) fun h => (chan h).closed
  | .close _ => moved log c = [] ∧ ∀ got k, call c ≠ .returned (.plain got) ∧ call c ≠ .returned (.selected k got)
  | .select cases _ => SelectOk c cases (call c) (fired c) (fun i => slot (.case c i)) (moved log c)
      fun h => (chan h).closed

structure Inv [DecidableEq H] [DecidableEq C] (calls : C → Call H V) (cap : H → ℕ) (s : State H C V) : Prop where
  queue : QueueOk calls cap s.chan s.fired s.slot s.call
  flow : ∀ ch, Flow cap ch (s.chan ch) s.log
  fifo : ∀ ch, Fifo ch (s.chan ch) s.log
  events : ∀ e ∈ s.log, EventOk calls e
  own : ∀ c, Own calls s.chan s.fired s.slot s.call s.log c

end Runloom.Chan
