import Runloom.StackGrow.Spec

/-!
# Growth does not show

The model and the channels without addresses do the same, as long as a stack moves only when its
waiter has left the queue: every address in a queue is then the place of a fiber's waiter, which is
where the fiber looks.
-/

namespace Runloom.StackGrow

open Transition List

/-! ## Sections over other references -/

section Map

variable {R S V : Type*}

def Chan.map (φ : R → S) (ch : Chan R V) : Chan S V where
  cap := ch.cap
  closed := ch.closed
  buf := ch.buf
  senders := ch.senders.map φ
  receivers := ch.receivers.map φ

def Effect.map (φ : R → S) (e : Effect R V) : Effect S V where
  chan := e.chan.map φ
  writes := e.writes.map fun p => (φ p.1, p.2)
  result := e.result

variable {get : R → Option (Record V)} {get' : S → Option (Record V)} {φ : R → S} {ch : Chan R V}

theorem queue_map (side : Bool) : (ch.map φ).queue side = (ch.queue side).map φ := by
  cases side <;> rfl

theorem push_map (r : R) (op : Op V) : (ch.push r op).map φ = (ch.map φ).push (φ r) op := by
  cases op with
  | send v | recv => simp [Chan.push, Chan.map]

theorem sendLocked_map (h : ∀ side, ∀ r ∈ ch.queue side, get' (φ r) = get r) {v : V} {blocking : Bool} :
    (ch.map φ).sendLocked get' v blocking = (ch.sendLocked get v blocking).map (Effect.map φ) := by
  obtain ⟨cap, closed, buf, senders, receivers⟩ := ch
  unfold Chan.sendLocked
  simp only [Chan.map]
  cases closed with
  | true => rfl
  | false =>
    cases receivers with
    | nil =>
      simp only [map_nil, Bool.false_eq_true, if_false]
      split <;> rfl
    | cons rx rest =>
      have hget := h false rx mem_cons_self
      simp only [map_cons, hget, Option.map_map, Bool.false_eq_true, if_false]
      rfl

theorem recvLocked_map (h : ∀ side, ∀ r ∈ ch.queue side, get' (φ r) = get r) {blocking : Bool} :
    (ch.map φ).recvLocked get' blocking = (ch.recvLocked get blocking).map (Effect.map φ) := by
  obtain ⟨cap, closed, buf, senders, receivers⟩ := ch
  unfold Chan.recvLocked
  simp only [Chan.map]
  cases buf with
  | nil =>
    cases senders with
    | nil => cases closed <;> rfl
    | cons tx rest =>
      have hget := h true tx mem_cons_self
      simp only [map_cons, hget, Option.map_map]
      rfl
  | cons v buf =>
    cases senders with
    | nil => rfl
    | cons tx rest =>
      have hget := h true tx mem_cons_self
      simp only [map_cons, hget, Option.map_bind, Function.comp_def, Option.map_map]
      rfl

theorem wakeAll_map (write : Record V → Record V) {rs : List R} (h : ∀ r ∈ rs, get' (φ r) = get r) :
    wakeAll get' write (rs.map φ) = (wakeAll get write rs).map (List.map fun p => (φ p.1, p.2)) := by
  induction rs with
  | nil => rfl
  | cons r rs ih =>
    have ih' := ih fun x hx => h x (mem_cons_of_mem _ hx)
    simp only [map_cons, wakeAll, h r mem_cons_self, ih', Option.map_bind, Function.comp_def, Option.map_map]

theorem closeLocked_map (h : ∀ side, ∀ r ∈ ch.queue side, get' (φ r) = get r) :
    (ch.map φ).closeLocked get' = (ch.closeLocked get).map (Effect.map φ) := by
  obtain ⟨cap, closed, buf, senders, receivers⟩ := ch
  unfold Chan.closeLocked
  simp only [Chan.map]
  cases closed with
  | true => rfl
  | false =>
    have hs : ∀ r ∈ senders, get' (φ r) = get r := h true
    have hr : ∀ r ∈ receivers, get' (φ r) = get r := h false
    simp only [Bool.false_eq_true, if_false, wakeAll_map _ hs, wakeAll_map _ hr]
    cases wakeAll get Record.closeSender senders with
    | none => rfl
    | some txs =>
      cases wakeAll get Record.closeReceiver receivers with
      | none => rfl
      | some rxs => simp [Effect.map, Chan.map]

theorem locked_map (h : ∀ side, ∀ r ∈ ch.queue side, get' (φ r) = get r) (op : Op V) (blocking : Bool) :
    op.locked get' (ch.map φ) blocking = (op.locked get ch blocking).map (Effect.map φ) := by
  cases op with
  | send v => exact sendLocked_map h
  | recv => exact recvLocked_map h

end Map

/-! ## Places -/

section Places

variable {C F V : Type*} {s s' : State C F V} {a a' : Spec.State C F V} {loc : F → Nat}

/-- The states are the same, with the waiter of `f` at `loc f`, its frame below it, and the pointer of the frame to
it. -/
structure Rel (s : State C F V) (a : Spec.State C F V) (loc : F → Nat) : Prop where
  pc : s.pc = a.pc
  log : s.log = a.log
  fault : s.fault = false
  chan : ∀ c, s.chan c = (a.chan c).map loc
  frame : ∀ f, (a.pc f).waiting ≠ none →
    (s.stack f).lo ≤ (s.stack f).sp ∧ (s.stack f).sp < loc f ∧ loc f < (s.stack f).hi
  ptr : ∀ f, (a.pc f).waiting ≠ none → s.mem (s.stack f).sp = .ptr (loc f)
  record : ∀ f, (a.pc f).waiting ≠ none → s.mem (loc f) = .record (a.waiter f)
  apart : ∀ f g, f ≠ g → (s.stack f).Apart (s.stack g).lo (s.stack g).hi
  room : ∀ f, (s.stack f).lo + 1 < (s.stack f).hi

variable {f : F} {x : Nat}

section

variable (hR : Rel s a loc)
include hR

theorem Rel.ne_of_ne {g : F} (hfg : f ≠ g) {y : Nat}
    (hx : (s.stack f).Contains x) (hy : (s.stack g).Contains y) : x ≠ y := by
  rintro rfl
  have := hR.apart f g hfg
  unfold Stack.Apart at this
  unfold Stack.Contains at hx hy
  omega

theorem Rel.contains_loc (hf : (a.pc f).waiting ≠ none) : (s.stack f).Contains (loc f) := by
  have := hR.frame f hf
  exact ⟨by omega, by omega⟩

theorem Rel.contains_sp (hf : (a.pc f).waiting ≠ none) : (s.stack f).Contains (s.stack f).sp := by
  have := hR.frame f hf
  exact ⟨by omega, by omega⟩

theorem Rel.get_eq (hI : Spec.Inv a) {c : C} (side : Bool) (f : F)
    (hf : f ∈ (a.chan c).queue side) : s.get (loc f) = a.get f := by
  obtain ⟨op, hop, -⟩ := hI.waits c side f hf
  unfold State.get
  rw [hR.record f (by rw [hop]; nofun)]
  rfl

theorem Rel.report (f : F) (r : Result V) : Rel (s.report f r) (a.report f r) loc where
  pc := hR.pc
  log := congrArg (· ++ [(f, r)]) hR.log
  fault := hR.fault
  chan := hR.chan
  frame := hR.frame
  ptr := hR.ptr
  record := hR.record
  apart := hR.apart
  room := hR.room

end

variable [DecidableEq F]

theorem Rel.setPc (hR : Rel s a loc) {pc : Pc C V}
    (h : pc.waiting ≠ none → (a.pc f).waiting ≠ none) : Rel (s.setPc f pc) (a.setPc f pc) loc := by
  have hw : ∀ g, (update a.pc f pc g).waiting ≠ none → (a.pc g).waiting ≠ none := by
    intro g hg
    by_cases hgf : g = f
    · rw [hgf, update_self] at hg
      exact hgf ▸ h hg
    · rw [update_of_ne hgf] at hg
      exact hg
  refine ⟨?_, hR.log, hR.fault, hR.chan, fun g hg => hR.frame g (hw g hg),
    fun g hg => hR.ptr g (hw g hg), fun g hg => hR.record g (hw g hg), hR.apart, hR.room⟩
  show update s.pc f pc = update a.pc f pc
  rw [hR.pc]

theorem Rel.write_one (hR : Rel s a loc) (hf : (a.pc f).waiting ≠ none) (w : Record V) :
    Rel { s with mem := update s.mem (loc f) (.record w) } { a with waiter := update a.waiter f w } loc where
  pc := hR.pc
  log := hR.log
  fault := hR.fault
  chan := hR.chan
  frame := hR.frame
  ptr g hg := by
    have hne : (s.stack g).sp ≠ loc f := by
      by_cases hgf : g = f
      · have := hR.frame f hf
        rw [hgf]
        omega
      · exact hR.ne_of_ne hgf (hR.contains_sp hg) (hR.contains_loc hf)
    refine (update_of_ne hne ..).trans ?_
    exact hR.ptr g hg
  record g hg := by
    by_cases hgf : g = f
    · simp only [hgf, update_self]
    · have hne := hR.ne_of_ne hgf (hR.contains_loc hg) (hR.contains_loc hf)
      simp only [update_of_ne hne, update_of_ne hgf]
      exact hR.record g hg
  apart := hR.apart
  room := hR.room

theorem Rel.write (hR : Rel s a loc) {ws : List (F × Record V)} (hws : ∀ p ∈ ws, (a.pc p.1).waiting ≠ none) :
    Rel (s.write (ws.map fun p => (loc p.1, p.2))) (a.write ws) loc := by
  induction ws generalizing s a with
  | nil => exact hR
  | cons p ws ih =>
    have h₁ := hR.write_one (hws p mem_cons_self) p.2
    exact ih h₁ fun q hq => hws q (mem_cons_of_mem _ hq)

variable [DecidableEq C]

omit [DecidableEq F] in
theorem Rel.setChan (hR : Rel s a loc) (c : C) (ch : Chan F V) :
    Rel (s.setChan c (ch.map loc)) (a.setChan c ch) loc where
  pc := hR.pc
  log := hR.log
  fault := hR.fault
  chan c' := by
    simp only [State.setChan, Spec.State.setChan]
    by_cases hc : c' = c
    · rw [hc, update_self, update_self]
    · rw [update_of_ne hc, update_of_ne hc]
      exact hR.chan c'
  frame := hR.frame
  ptr := hR.ptr
  record := hR.record
  apart := hR.apart
  room := hR.room

theorem Rel.perform (hR : Rel s a loc) (hI : Spec.Inv a) {c : C} {e : Effect F V}
    (he : e.Pops (a.chan c)) : Rel (s.perform c (e.map loc)) (a.perform c e) loc := by
  refine (hR.write fun p hp => ?_).setChan c e.chan
  obtain ⟨side, hmem, -⟩ := he.writes p hp
  obtain ⟨op, hop, -⟩ := hI.waits c side p.1 hmem
  rw [hop]
  nofun

theorem map_update {ch : Chan F V} {w : Nat} (h : ∀ side, f ∉ ch.queue side) :
    ch.map (update loc f w) = ch.map loc := by
  have key : ∀ side, (ch.queue side).map (update loc f w) = (ch.queue side).map loc := by
    intro side
    refine map_congr_left fun g hg => ?_
    have hgf : g ≠ f := fun hgf => h side (hgf ▸ hg)
    exact update_of_ne hgf ..
  unfold Chan.map
  rw [show ch.senders.map (update loc f w) = ch.senders.map loc from key true,
    show ch.receivers.map (update loc f w) = ch.receivers.map loc from key false]

theorem Rel.park (hR : Rel s a loc) (hI : Spec.Inv a) {c : C} {op : Op V} {sp w : Nat}
    (hf : (a.pc f).waiting = none) (hlo : (s.stack f).lo ≤ sp) (hsp : sp < w)
    (hw : w < (s.stack f).hi) :
    Rel (s.park f c op sp w) (a.park f c op) (update loc f w) := by
  have hout := hI.not_mem hf
  have hwait : ∀ g, g ≠ f → ((a.park f c op).pc g).waiting ≠ none → (a.pc g).waiting ≠ none := by
    intro g hgf hg
    simp only [Spec.State.park, Spec.State.setPc, update_of_ne hgf] at hg
    exact hg
  have hsw : sp ≠ w := by omega
  have hrange : ∀ g, ((s.park f c op sp w).stack g).lo = (s.stack g).lo ∧
      ((s.park f c op sp w).stack g).hi = (s.stack g).hi := by
    intro g
    simp only [State.park, State.setPc]
    by_cases hgf : g = f
    · rw [hgf, update_self]
      exact ⟨rfl, rfl⟩
    · rw [update_of_ne hgf]
      exact ⟨rfl, rfl⟩
  have hcs : (s.stack f).Contains sp := ⟨hlo, by omega⟩
  have hcw : (s.stack f).Contains w := ⟨by omega, hw⟩
  refine ⟨?_, hR.log, hR.fault, fun c' => ?_, fun g hg => ?_, fun g hg => ?_, fun g hg => ?_,
    fun g h hgh => ?_, fun g => ?_⟩
  · show update s.pc f _ = update a.pc f _
    rw [hR.pc]
  · show update s.chan c _ c' = (update a.chan c _ c').map _
    by_cases hc : c' = c
    · rw [hc, update_self, update_self, push_map, update_self, map_update (hout c), hR.chan]
    · rw [update_of_ne hc, update_of_ne hc, map_update (hout c'), hR.chan]
  · simp only [State.park, State.setPc]
    by_cases hgf : g = f
    · rw [hgf, update_self, update_self]
      exact ⟨hlo, hsp, hw⟩
    · rw [update_of_ne hgf, update_of_ne hgf]
      exact hR.frame g (hwait g hgf hg)
  · simp only [State.park, State.setPc]
    by_cases hgf : g = f
    · rw [hgf, update_self, update_self, update_self]
    · have hg' := hwait g hgf hg
      rw [update_of_ne hgf, update_of_ne hgf, update_of_ne (hR.ne_of_ne hgf (hR.contains_sp hg') hcs),
        update_of_ne (hR.ne_of_ne hgf (hR.contains_sp hg') hcw)]
      exact hR.ptr g hg'
  · simp only [State.park, State.setPc, Spec.State.park, Spec.State.setPc]
    by_cases hgf : g = f
    · rw [hgf, update_self, update_of_ne hsw.symm, update_self, update_self]
    · have hg' := hwait g hgf hg
      rw [update_of_ne hgf, update_of_ne hgf, update_of_ne (hR.ne_of_ne hgf (hR.contains_loc hg') hcs),
        update_of_ne (hR.ne_of_ne hgf (hR.contains_loc hg') hcw)]
      exact hR.record g hg'
  · have hap := hR.apart g h hgh
    unfold Stack.Apart at hap ⊢
    rw [(hrange g).1, (hrange g).2, (hrange h).1, (hrange h).2]
    exact hap
  · rw [(hrange g).1, (hrange g).2]
    exact hR.room g

/-! ## Growth -/

variable {st : Stack}

theorem shift_lt {hi : Nat} (hx : st.Contains x) (hhi : st.hi - st.lo < hi) :
    st.shift hi x < hi ∧ hi - (st.hi - st.lo) ≤ st.shift hi x ∧ st.hi - (hi - st.shift hi x) = x := by
  unfold Stack.Contains at hx
  unfold Stack.shift
  omega

theorem shift_lt_shift {hi y : Nat} (hxy : x < y) (hy : y < st.hi)
    (hhi : st.hi - x < hi) : st.shift hi x < st.shift hi y := by
  unfold Stack.shift
  omega

section

omit [DecidableEq C] [DecidableEq F]

theorem move_shift {hi : Nat} (hx : st.Contains x) (hsp : st.sp ≤ x)
    (hhi : st.hi - st.lo < hi) : s.move st hi (st.shift hi x) = (s.mem x).relocate st hi := by
  have h := shift_lt hx hhi
  have hle : st.shift hi st.sp ≤ st.shift hi x := by
    unfold Stack.shift
    omega
  unfold State.move
  rw [if_pos ⟨hle, h.1⟩, h.2.2]

theorem move_of_apart {hi : Nat} (hx : ¬st.Contains x)
    (hnew : x < st.shift hi st.sp ∨ hi ≤ x) : s.move st hi x = s.mem x := by
  unfold State.move
  rw [if_neg (by omega), if_neg hx]

end

omit [DecidableEq C] in
theorem Rel.grow (hR : Rel s a loc) {lo size : Nat}
    (hf : (a.pc f).waiting ≠ none) (hout : ∀ c side, f ∉ (a.chan c).queue side)
    (hfresh : ∀ g, (s.stack g).Apart lo (lo + size)) : ∃ loc', Rel (s.grow f lo size) a loc' := by
  unfold State.grow
  simp only
  split
  next => exact ⟨loc, hR⟩
  next hsize =>
    have hframe := hR.frame f hf
    have hhi : (s.stack f).hi - (s.stack f).lo < lo + size := by omega
    have hcs := shift_lt (hR.contains_sp hf) hhi
    have hcl := shift_lt (hR.contains_loc hf) hhi
    have hlt : (s.stack f).shift (lo + size) (s.stack f).sp < (s.stack f).shift (lo + size) (loc f) :=
      shift_lt_shift hframe.2.1 hframe.2.2 (by omega)
    -- The cells of the other fibers are in neither range.
    have hother : ∀ g, g ≠ f → ∀ x, (s.stack g).Contains x → s.move (s.stack f) (lo + size) x = s.mem x := by
      intro g hgf x hx
      refine move_of_apart (fun hxf => hR.ne_of_ne hgf hx hxf rfl) ?_
      have hap := hfresh g
      unfold Stack.Apart at hap
      unfold Stack.Contains at hx
      omega
    refine ⟨update loc f ((s.stack f).shift (lo + size) (loc f)), hR.pc, hR.log, hR.fault,
      fun c => ?_, fun g hg => ?_, fun g hg => ?_, fun g hg => ?_, fun g h hgh => ?_, fun g => ?_⟩
    · rw [map_update (hout c)]
      exact hR.chan c
    · by_cases hgf : g = f
      · simp only [hgf, update_self]
        exact ⟨by omega, hlt, hcl.1⟩
      · simp only [update_of_ne hgf]
        exact hR.frame g hg
    · by_cases hgf : g = f
      · simp only [hgf, update_self]
        rw [move_shift (hR.contains_sp hf) (Nat.le_refl _) hhi, hR.ptr f hf]
        exact if_pos (hR.contains_loc hf)
      · simp only [update_of_ne hgf]
        rw [hother g hgf _ (hR.contains_sp hg)]
        exact hR.ptr g hg
    · by_cases hgf : g = f
      · simp only [hgf, update_self]
        rw [move_shift (hR.contains_loc hf) (by omega) hhi, hR.record f hf]
        rfl
      · simp only [update_of_ne hgf]
        rw [hother g hgf _ (hR.contains_loc hg)]
        exact hR.record g hg
    · have hg := hfresh g
      have hh := hfresh h
      unfold Stack.Apart at hg hh
      by_cases hgf : g = f
      · have hhf : h ≠ f := fun hh => hgh (hgf.trans hh.symm)
        simp only [hgf, update_self, update_of_ne hhf, Stack.Apart]
        omega
      · simp only [update_of_ne hgf]
        by_cases hhf : h = f
        · simp only [hhf, update_self, Stack.Apart]
          omega
        · simp only [update_of_ne hhf]
          exact hR.apart g h hgh
    · have hroom := hR.room f
      by_cases hgf : g = f
      · simp only [hgf, update_self]
        omega
      · simp only [update_of_ne hgf]
        exact hR.room g

/-! ## Steps -/

section

omit [DecidableEq C] [DecidableEq F]

theorem Rel.waiter_eq (hR : Rel s a loc) (hf : (a.pc f).waiting ≠ none) :
    s.waiter f = some (loc f) ∧ s.get (loc f) = some (a.waiter f) := by
  constructor
  · unfold State.waiter
    rw [hR.ptr f hf]
  · unfold State.get
    rw [hR.record f hf]

theorem write_stack (ws : List (Nat × Record V)) : (s.write ws).stack = s.stack := by
  induction ws generalizing s with
  | nil => rfl
  | cons p ws ih => exact ih

end

omit [DecidableEq F] in
theorem perform_stack {c : C} {e : Effect Nat V} : (s.perform c e).stack = s.stack :=
  write_stack e.writes

def Action.spec : Action C F V → Spec.Action C F V
  | .op f c o blocking _ _ => .op f c o blocking
  | .close f c => .close f c
  | .resume f _ => .resume f
  | .check f => .check f

def Popped (s : State C F V) : Action C F V → Prop
  | .resume f (some _) => ∀ x ∈ s.waiter f, ∀ w ∈ s.get x, w.queued = false
  | _ => True

def Still (_ : State C F V) : Action C F V → Prop
  | .resume _ (some _) => False
  | _ => True

omit [DecidableEq C] in
theorem Rel.check (hR : Rel s a loc) {c : C} {op : Op V} (hf : a.pc f = .resumed c op) :
    Rel (s.check f c op) (a.check f c op) loc := by
  have hw : (a.pc f).waiting ≠ none := by
    rw [hf]
    nofun
  unfold State.check Spec.State.check
  rw [(hR.waiter_eq hw).1]
  simp only
  rw [(hR.waiter_eq hw).2]
  simp only
  split
  · exact hR.setPc fun _ => hw
  · refine Rel.report ?_ f _
    exact hR.setPc fun h => absurd rfl h

variable [Fintype F]

theorem Rel.step {act : Action C F V} (hR : Rel s a loc) (hI : Spec.Inv a) (hC : Popped s act)
    (h : s.step act = some s') : ∃ a' loc', a.step act.spec = some a' ∧ Rel s' a' loc' := by
  cases act with
  | op f c op blocking sp w =>
    simp only [State.step] at h
    rw [hR.pc] at h
    split at h
    next hpc =>
      obtain ⟨e, he⟩ := hI.locked_some c op blocking
      have hpops := locked_pops (hI.nodup c) he
      rw [hR.chan c, locked_map (hR.get_eq hI), he] at h
      simp only [Option.map_some] at h
      simp only [Action.spec, Spec.State.step, hpc, he, Option.map_some]
      have hp := hR.perform hI hpops
      have hres : (e.map loc).result = e.result := rfl
      rw [hres] at h
      cases hr : e.result with
      | some r =>
        rw [hr] at h
        cases h
        exact ⟨_, loc, rfl, hp.report f r⟩
      | none =>
        rw [hr] at h
        simp only at h
        split at h <;> cases h
        next hplace =>
          refine ⟨_, _, rfl, hp.park (hI.perform hpops) ?_ ?_ hplace.2.1 ?_⟩
          · rw [Spec.perform_pc, hpc]
            rfl
          · rw [perform_stack]
            exact hplace.1
          · rw [perform_stack]
            exact hplace.2.2
    next => cases h
  | close f c =>
    simp only [State.step] at h
    rw [hR.pc] at h
    split at h
    next hpc =>
      obtain ⟨e, he⟩ := Spec.closeLocked_some (a := a) c
      rw [hR.chan c, closeLocked_map (hR.get_eq hI), he] at h
      cases h
      simp only [Action.spec, Spec.State.step, hpc, he, Option.map_some]
      exact ⟨_, loc, rfl, (hR.perform hI (closeLocked_pops he)).report f _⟩
    next => cases h
  | resume f grow =>
    simp only [State.step] at h
    rw [hR.pc] at h
    split at h
    next c op hpc =>
      have hw : (a.pc f).waiting ≠ none := by
        rw [hpc]
        exact Option.some_ne_none _
      simp only [Action.spec, Spec.State.step, hpc]
      cases grow with
      | none =>
        cases h
        exact ⟨_, loc, rfl, hR.setPc fun _ => hw⟩
      | some range =>
        simp only at h
        split at h <;> cases h
        next hfresh =>
          -- A waiter that is not queued is in no queue.
          have hq := hC _ (hR.waiter_eq hw).1 _ (hR.waiter_eq hw).2
          have hout : ∀ c side, f ∉ (a.chan c).queue side := by
            intro c side hmem
            rw [hI.queued c side f hmem] at hq
            cases hq
          obtain ⟨loc', hR'⟩ := hR.grow hw hout hfresh
          exact ⟨_, loc', rfl, hR'.setPc fun _ => hw⟩
    next => cases h
  | check f =>
    simp only [State.step] at h
    rw [hR.pc] at h
    split at h <;> cases h
    next c op hpc =>
      simp only [Action.spec, Spec.State.step, hpc]
      exact ⟨_, loc, rfl, hR.check hpc⟩

/-- A step on the stacks as they are, without growth. -/
def State.lift (s : State C F V) : Spec.Action C F V → Action C F V
  | .op f c op blocking => .op f c op blocking (s.stack f).lo ((s.stack f).lo + 1)
  | .close f c => .close f c
  | .resume f => .resume f none
  | .check f => .check f

section

omit [DecidableEq C] [DecidableEq F] [Fintype F]

theorem still_lift (act : Spec.Action C F V) : Still s (s.lift act) ∧ (s.lift act).spec = act := by
  cases act <;> exact ⟨trivial, rfl⟩

theorem popped_of_still {act : Action C F V} (h : Still s act) : Popped s act := by
  cases act with
  | resume f grow =>
    cases grow with
    | none => trivial
    | some range => cases h
  | op f c op blocking sp w => trivial
  | close f c => trivial
  | check f => trivial

end

theorem Rel.enabled (hR : Rel s a loc) {act : Spec.Action C F V} (h : a.step act = some a') :
    ∃ s', s.step (s.lift act) = some s' := by
  cases act with
  | op f c op blocking =>
    simp only [Spec.State.step] at h
    split at h
    next hpc =>
      simp only [State.lift, State.step, hR.pc, hpc]
      split
      · exact ⟨_, rfl⟩
      · split
        · exact ⟨_, rfl⟩
        · exact ⟨_, if_pos ⟨Nat.le_refl _, Nat.lt_succ_self _, hR.room f⟩⟩
    next => cases h
  | close f c =>
    simp only [Spec.State.step] at h
    split at h
    next hpc =>
      simp only [State.lift, State.step, hR.pc, hpc]
      split <;> exact ⟨_, rfl⟩
    next => cases h
  | resume f | check f =>
    simp only [Spec.State.step] at h
    split at h
    next hpc =>
      simp only [State.lift, State.step, hR.pc, hpc]
      exact ⟨_, rfl⟩
    next => cases h

end Places

/-! ## The simulations -/

section Main

variable {C F V : Type*} [DecidableEq C] [DecidableEq F] [Fintype F] {cap : C → Nat} {layout : Layout F}

omit [DecidableEq C] [DecidableEq F] [Fintype F] in
theorem rel_init {s : State C F V} {a : Spec.State C F V} (hs : Init cap layout s)
    (ha : Spec.Init cap a) (loc : F → Nat) : Rel s a loc := by
  have hnone : ∀ f, ¬(a.pc f).waiting ≠ none := by
    intro f h
    rw [ha.pc f] at h
    exact h rfl
  refine ⟨?_, hs.log.trans ha.log.symm, hs.fault, fun c => ?_, fun f hf => absurd hf (hnone f),
    fun f hf => absurd hf (hnone f), fun f hf => absurd hf (hnone f), ?_, ?_⟩
  · funext f
    rw [hs.pc, ha.pc]
  · rw [hs.chan, ha.chan]
    rfl
  · rw [hs.stack]
    exact layout.apart
  · rw [hs.stack]
    exact layout.room

theorem refines {s : State C F V} (h : (chans V cap layout).ReachableWith Popped s) :
    ∃ a, (Spec.spec F V cap).Reachable a ∧ Spec.Inv a ∧ ∃ loc, Rel s a loc := by
  refine h.simulate (N := Spec.spec F V cap) (D := fun _ _ => True)
    (R := fun s a => Spec.Inv a ∧ ∃ loc, Rel s a loc) ?_ ?_
  · intro s hs
    have ha : Spec.Init (F := F) (V := V) cap ⟨fun c => .empty (cap c), fun _ => ⟨none, 0, 0, false⟩,
        fun _ => .running, []⟩ := ⟨fun _ => rfl, fun _ => rfl, rfl⟩
    exact ⟨_, ha, Spec.Inv.init ha, fun _ => 0, rel_init hs ha _⟩
  · intro s act s' a hRel hC hs
    obtain ⟨hI, loc, hR⟩ := hRel
    obtain ⟨a', loc', ha', hR'⟩ := hR.step hI hC hs
    exact .inr ⟨act.spec, a', trivial, ha', hI.step ha', loc', hR'⟩

theorem realizes (layout : Layout F) {a : Spec.State C F V} (h : (Spec.spec F V cap).Reachable a) :
    ∃ s, (chans V cap layout).ReachableWith Still s ∧ Spec.Inv a ∧ ∃ loc, Rel s a loc := by
  refine h.simulate (N := chans V cap layout) (D := Still) (R := fun a s => Spec.Inv a ∧ ∃ loc, Rel s a loc) ?_ ?_
  · intro a ha
    have hs : Init (V := V) cap layout ⟨fun c => .empty (cap c), fun _ => .free, layout.stack,
        fun _ => .running, [], false⟩ := ⟨fun _ => rfl, rfl, fun _ => rfl, rfl, rfl⟩
    exact ⟨_, hs, Spec.Inv.init ha, fun _ => 0, rel_init hs ha _⟩
  · intro a act a' s hRel _ ha
    obtain ⟨hI, loc, hR⟩ := hRel
    obtain ⟨s', hs'⟩ := hR.enabled ha
    obtain ⟨hstill, hspec⟩ := still_lift (s := s) act
    obtain ⟨a'', loc', ha'', hR'⟩ := hR.step hI (popped_of_still hstill) hs'
    rw [hspec] at ha''
    have haa : a'' = a' := Option.some.inj (ha''.symm.trans ha)
    exact .inr ⟨_, s', hstill, hs', hI.step ha, loc', haa ▸ hR'⟩

end Main

/-- Every waiter in a queue is in the stack of its fiber, where the fiber looks. -/
structure Attached {C F V : Type*} (s : State C F V) : Prop where
  fault : s.fault = false
  linked : ∀ c side x, x ∈ (s.chan c).queue side → ∃ f op, (s.pc f).waiting = some (c, op) ∧
    op.sends = side ∧ (s.stack f).Contains x ∧ s.waiter f = some x ∧ s.get x ≠ none

/-- When stacks grow only after the waiter has been popped, the operations return what they do without growth. -/
theorem growth_keeps_waiters {C F : Type*} (V : Type*) [DecidableEq C] [DecidableEq F] [Fintype F]
    (cap : C → Nat) (layout : Layout F) :
    (∀ s, (chans V cap layout).ReachableWith Popped s → Attached s) ∧
    ∀ log, (∃ s, (chans V cap layout).ReachableWith Popped s ∧ s.log = log) ↔
      ∃ s, (chans V cap layout).ReachableWith Still s ∧ s.log = log := by
  refine ⟨fun s hs => ?_, fun log => ⟨?_, ?_⟩⟩
  · obtain ⟨a, -, hI, loc, hR⟩ := refines hs
    refine ⟨hR.fault, fun c side x hx => ?_⟩
    rw [hR.chan, queue_map] at hx
    obtain ⟨f, hf, rfl⟩ := mem_map.mp hx
    obtain ⟨op, hop, hside⟩ := hI.waits c side f hf
    have hw : (a.pc f).waiting ≠ none := by
      rw [hop]
      nofun
    refine ⟨f, op, by rw [hR.pc, hop], hside, hR.contains_loc hw, (hR.waiter_eq hw).1, ?_⟩
    rw [(hR.waiter_eq hw).2]
    nofun
  · rintro ⟨s, hs, rfl⟩
    obtain ⟨a, ha, -, loc, hR⟩ := refines hs
    obtain ⟨s', hs', -, loc', hR'⟩ := realizes layout ha
    exact ⟨s', hs', hR'.log.trans hR.log.symm⟩
  · rintro ⟨s, hs, rfl⟩
    exact ⟨s, hs.mono fun _ _ => popped_of_still, rfl⟩

instance {C F V : Type*} (s : State C F V) : ∀ act : Action C F V, Decidable (Popped s act)
  | .resume f (some _) => inferInstanceAs (Decidable (∀ x ∈ s.waiter f, ∀ w ∈ s.get x, w.queued = false))
  | .resume _ none | .op .. | .close .. | .check _ => .isTrue trivial

def Layout.two : Layout Bool where
  stack f := if f then ⟨10, 20, 20⟩ else ⟨0, 10, 10⟩
  apart := by decide
  room := by decide

def State.start : State Unit Bool Nat where
  chan _ := .empty 0
  mem _ := .free
  stack := Layout.two.stack
  pc _ := .running
  log := []
  fault := false

theorem init_start : Init (fun _ => 0) Layout.two State.start :=
  ⟨fun _ => rfl, rfl, fun _ => rfl, rfl, rfl⟩

/-- A receiver is given a value, and its stack grows when it is resumed. -/
theorem growth_keeps_waiters_popped : ∃ s : State Unit Bool Nat, Attached s ∧ (s.stack false).lo = 30 ∧
      s.log = [(true, .sent), (false, .received (some 7))] := by
  obtain ⟨s, hr, hp⟩ := (chans Nat (fun _ : Unit => 0) Layout.two).reachesWith Popped
    (fun s => (s.stack false).lo = 30 ∧ s.log = [(true, .sent), (false, .received (some 7))])
    [.op false () .recv true 4 6, .op true () (.send 7) true 14 16, .resume false (some (30, 20)), .check false]
    init_start (by decide +kernel)
  exact ⟨s, (growth_keeps_waiters Nat (fun _ => 0) Layout.two).1 s hr, hp⟩

/-- A receiver's stack grows while its waiter is linked. -/
theorem growth_detaches_waiter :
    (¬∀ s : State Unit Bool Nat, (chans Nat (fun _ => 0) Layout.two).Reachable s → Attached s) ∧
    ∃ s : State Unit Bool Nat, (chans Nat (fun _ => 0) Layout.two).Reachable s ∧ s.fault = true := by
  constructor
  · intro hclaim
    obtain ⟨s, hr, hq, hout⟩ := (chans Nat (fun _ : Unit => 0) Layout.two).reaches
      (fun s => (s.chan ()).receivers = [6] ∧ ∀ f, ¬(s.stack f).Contains 6)
      [.op false () .recv true 4 6, .resume false (some (30, 20))] init_start (by decide +kernel)
    have hmem : 6 ∈ (s.chan ()).queue false := by
      show 6 ∈ (s.chan ()).receivers
      rw [hq]
      exact mem_cons_self
    obtain ⟨f, -, -, -, hf, -⟩ := (hclaim s hr).linked () false 6 hmem
    exact hout f hf
  · exact (chans Nat (fun _ : Unit => 0) Layout.two).reaches (fun s => s.fault)
      [.op false () .recv true 4 6, .resume false (some (30, 20)), .check false,
        .op true () (.send 7) true 14 16] init_start (by decide +kernel)

end Runloom.StackGrow
