import Runloom.Chan.References

/-!
# What the waiter records hold

Every record of a waiting call holds what the events of the call say: a send its own value until it is
taken, a receive nothing until a value is delivered.  The other records of a select are not touched
when one of its cases fires.
-/

namespace Runloom.Chan

open Transition List
open State (record setSlot setQueue setChan release)

variable {H C V : Type*} {calls : C → Call H V} {cap : H → ℕ} {s t : State H C V} {ch : H} {c : C}
  {pc : CallPc C V}

def Got.item : Got C V → Option (Item C V)
  | .value x => x
  | _ => none

/-- What the record of an operation holds when the call has moved `m`. -/
def recordValue (w : Waiter C) (op : Op V) (m : List (ℕ × Got C V)) : Option (Item C V) :=
  match op with
  | .send v => if m.any fun p => p.1 = w.index then none else some ⟨w, v⟩
  | .recv => (m.find? fun p => p.1 = w.index).bind fun p => p.2.item

theorem recordValue_nil (w : Waiter C) (op : Op V) : recordValue w op [] = (State.freshSlot w op).value := by
  cases op <;> rfl

theorem recordValue_of_ne {w : Waiter C} {i : ℕ} (h : i ≠ w.index) (op : Op V) (got : Got C V) :
    recordValue w op [(i, got)] = recordValue w op [] := by
  cases op <;> simp [recordValue, h]

theorem recordValue_sent (w : Waiter C) (v : V) (got : Got C V) :
    recordValue w (.send v) [(w.index, got)] = none := by
  simp [recordValue]

theorem recordValue_got (w : Waiter C) (got : Got C V) :
    recordValue (V := V) w .recv [(w.index, got)] = got.item := by
  simp [recordValue]

variable [DecidableEq C]

/-- The records of the calls other than those in `p` hold what they should. -/
def RecordsOn (calls : C → Call H V) (s : State H C V) (p : C → Prop) : Prop :=
  ∀ w b, p w.call → opOf calls w = some b → (s.call w.call).waiting = true →
    (s.slot w).value = recordValue w b.op (moved s.log w.call)

def Records (calls : C → Call H V) (s : State H C V) : Prop :=
  RecordsOn calls s fun _ => True

theorem Records.on (h : Records calls s) (p : C → Prop) : RecordsOn calls s p :=
  fun w b _ hop hw => h w b trivial hop hw

/-! ## Frames -/

theorem RecordsOn.congr {p : C → Prop} (h : RecordsOn calls s p)
    (hcall : ∀ d, p d → (t.call d).waiting = true → (s.call d).waiting = true)
    (hslot : ∀ w : Waiter C, p w.call → (t.slot w).value = (s.slot w).value)
    (hmoved : ∀ d, p d → moved t.log d = moved s.log d) : RecordsOn calls t p := by
  intro w b hp hop hw
  rw [hslot w hp, hmoved w.call hp]
  exact h w b hp hop (hcall w.call hp hw)

theorem State.goto_call (s : State H C V) (c : C) (pc : CallPc C V) :
    (s.goto c pc).call = Function.update s.call c pc := rfl

theorem RecordsOn.goto (h : RecordsOn calls s (· ≠ c)) (hpc : pc.waiting = false) :
    Records calls (s.goto c pc) := by
  intro w b _ hop hw
  by_cases hwc : w.call = c
  · rw [State.goto_call, hwc, update_self, hpc] at hw
    cases hw
  · rw [State.goto_call, update_of_ne hwc] at hw
    exact h w b hwc hop hw

theorem Records.goto (h : Records calls s) (hpc : pc.waiting = true → (s.call c).waiting = true) :
    Records calls (s.goto c pc) := by
  refine RecordsOn.congr h ?_ (fun _ _ => rfl) fun _ _ => rfl
  intro d _ hd
  by_cases hdc : d = c
  · subst hdc
    rw [State.goto_call, update_self] at hd
    exact hpc hd
  · rwa [State.goto_call, update_of_ne hdc] at hd

theorem Records.fill (h : Records calls s) {w : Waiter C} {b : Case H V} (got : Got C V)
    (hop : opOf calls w = some b) (hcall : t.call = s.call)
    (hnil : moved s.log w.call = []) (hmoved : moved t.log w.call = [(w.index, got)])
    (hvalue : (t.slot w).value = recordValue w b.op [(w.index, got)])
    (hslot : ∀ x, x ≠ w → (t.slot x).value = (s.slot x).value)
    (hother : ∀ d, d ≠ c → d ≠ w.call → moved t.log d = moved s.log d) :
    RecordsOn calls t (· ≠ c) := by
  intro x b' hxc hop' hx
  rw [hcall] at hx
  have hold := h x b' trivial hop' hx
  by_cases hxw : x = w
  · subst hxw
    rw [hop] at hop'
    cases hop'
    rw [hmoved, hvalue]
  rw [hslot x hxw, hold]
  by_cases hcw : x.call = w.call
  · -- Another record of the same select: its case is not the one that moved.
    have hindex : w.index ≠ x.index := fun he => hxw (waiter_eq hop hop' hcw he.symm)
    rw [hcw, hnil, hmoved, recordValue_of_ne hindex]
  · rw [hother x.call hxc hcw]

variable [DecidableEq H]

/-! ## Sections of send and receive -/

section Ready

variable {me : Waiter C}

theorem Records.sendReady (h : Records calls s) (hI : Inv calls cap s) {v : V}
    (hpc : ∀ w, ¬LinkedAt (s.call me.call) w) :
    RecordsOn calls (s.sendReady cap ch me v).2 (· ≠ me.call) := by
  unfold State.sendReady
  split
  next => exact h.on _
  next =>
  cases hp : popQueue s.fired ((s.chan ch).waiters .recv) with
  | mk o rest =>
    cases o with
    | some rx =>
      obtain ⟨hrx, pre, hq, -⟩ := popQueue_some hp
      obtain ⟨b, hop, hbch, hside, -, -, hnil, -⟩ := hI.waiter hq hrx
      obtain rfl := eq_of_side hbch hside
      have hmem : rx ∈ (s.chan ch).waiters .recv := by
        rw [hq]
        exact mem_append_right pre mem_cons_self
      have hne : me.call ≠ rx.call := Ne.symm (hI.queue.call_ne hpc hmem)
      obtain ⟨-, hmr, hmo⟩ := moved_pass
        (l := [.accepted ch me (some ⟨me, v⟩) false, .handed ch rx (some ⟨me, v⟩)]) me rx _ _ false
        hne (.inl rfl)
      simp only [State.waiterPopClaimable, hp]
      refine h.fill (.value (some ⟨me, v⟩)) hop rfl hnil ?_ ?_ ?_ ?_
      · simp only [record, State.deliver, setSlot, setQueue, setChan, moved_append, hnil, hmr, nil_append]
      · simp only [record, State.deliver, setSlot, update_self, recordValue_got]
        rfl
      · intro x hx
        simp only [record, State.deliver, setSlot, setQueue, setChan, update_of_ne hx]
      · intro d hd hdr
        simp only [record, State.deliver, setSlot, setQueue, setChan, moved_append, hmo d hd hdr, append_nil]
    | none =>
      simp only [State.waiterPopClaimable, hp]
      split
      · refine (h.on _).congr (fun _ _ hw => hw) (fun _ _ => rfl) fun d hd => ?_
        have hme : moved ([.accepted ch me (some ⟨me, v⟩) false] : List (Event H C V)) d = [] := by
          simp only [moved, Event.movedBy, filterMap_cons, filterMap_nil, if_neg (Ne.symm hd)]
        simp only [record, State.bufPush, setQueue, setChan, moved_append, hme, append_nil]
      · exact (h.on _).congr (fun _ _ hw => hw) (fun _ _ => rfl) fun _ _ => rfl

omit [DecidableEq H] in
theorem Taken.records {tx : Waiter C} {v : V} {rest : List (Waiter C)} {x y : Option (Item C V)}
    {l : List (Event H C V)} (hT : Taken calls s ch me tx v rest) (h : Records calls s)
    (hl : l = [.accepted ch tx y true, .handed ch me x] ∨ l = [.handed ch me x, .accepted ch tx y true])
    (hcall : t.call = s.call) (hlog : t.log = s.log ++ l) (hvalue : (t.slot tx).value = none)
    (hslot : ∀ y, y ≠ tx → t.slot y = s.slot y) : RecordsOn calls t (· ≠ me.call) := by
  obtain ⟨hmt, -, hmo⟩ := moved_pass tx me _ _ true hT.ne hl
  refine h.fill .sent hT.op hcall hT.nil ?_ ?_ (fun y hy => by rw [hslot y hy]) fun d hd hdt => ?_
  · rw [hlog, moved_append, hT.nil, hmt, nil_append]
  · rw [hvalue, recordValue_sent]
  · rw [hlog, moved_append, hmo d hdt hd, append_nil]

theorem Records.recvReady (h : Records calls s) (hI : Inv calls cap s) (hpc : ∀ w, ¬LinkedAt (s.call me.call) w) :
    RecordsOn calls (s.recvReady cap ch me).2 (· ≠ me.call) := by
  unfold State.recvReady
  split
  · simp only [State.bufPop, State.waiterPopClaimable, setChan, update_self]
    cases hp : popQueue s.fired ((s.chan ch).waiters .send) with
    | mk o rest =>
      cases o with
      | some tx =>
        obtain ⟨v, hT⟩ := hI.taken hpc hp
        simp only [setQueue, setChan, setSlot, update_self]
        refine hT.records h (.inr rfl) rfl rfl ?_ fun y hy => ?_
        · simp only [record, release, setSlot, update_self]
        · simp only [record, release, setSlot, State.bufPush, setChan, update_of_ne hy]
      | none =>
        refine (h.on _).congr (fun _ _ hw => hw) (fun _ _ => rfl) fun d hd => ?_
        have hme : moved ([.handed ch me ((s.chan ch).buf (s.chan ch).head)] : List (Event H C V)) d = [] := by
          simp only [moved, Event.movedBy, filterMap_cons, filterMap_nil, if_neg (Ne.symm hd)]
        simp only [record, setQueue, setChan, moved_append, hme, append_nil]
  · cases hp : popQueue s.fired ((s.chan ch).waiters .send) with
    | mk o rest =>
      simp only [State.waiterPopClaimable, hp]
      cases o with
      | some tx =>
        obtain ⟨v, hT⟩ := hI.taken hpc hp
        simp only [setQueue, setChan, setSlot, update_self]
        refine hT.records h (.inl rfl) rfl rfl ?_ fun y hy => ?_
        · simp only [record, release, setSlot, update_self]
        · simp only [record, release, setSlot, update_of_ne hy]
      | none => exact (h.on _).congr (fun _ _ hw => hw) (fun _ _ => rfl) fun _ _ => rfl

theorem Records.opReady (h : Records calls s) (hI : Inv calls cap s) (ch : H) (op : Op V)
    (hpc : ∀ w, ¬LinkedAt (s.call me.call) w) :
    RecordsOn calls (s.opReady cap ch me op).2 (· ≠ me.call) := by
  cases op with
  | send v => exact h.sendReady hI hpc
  | recv => exact h.recvReady hI hpc

end Ready

end Runloom.Chan
