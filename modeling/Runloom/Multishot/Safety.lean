import Runloom.Multishot.Model
import Runloom.Transition.Ledger

/-!
# The byte stream of a multishot handle

The bytes returned so far, then what is left in the slot, in the ready queue and in the completions, are the stream.
Every buffer is in the pool or held by one of these, once. The reference count is the number of calls inside, of the
close, and of the live reference. And nobody is linked in `waiters` while there is something to return.
-/

namespace Runloom.Multishot

open Transition Linked List

/-! ## Copying out -/

section Copy

variable {B β : Type*} {mem : B → List β} {n : ℕ} {k k' : Copy B β} {ready ready' : List (Entry B)}

def slotBytes (mem : B → List β) : Option (Slot B) → List β
  | none => []
  | some e => (mem e.bid).drop e.off

def slotBids (slot : Option (Slot B)) : List B := (slot.map Slot.bid).toList

def readyBytes (mem : B → List β) (ready : List (Entry B)) : List β := ready.flatMap fun e => mem e.bid

def SlotFits (mem : B → List β) (slot : Option (Slot B)) : Prop :=
  ∀ e, slot = some e → (mem e.bid).length = e.len ∧ e.off < e.len

def Fits (mem : B → List β) (ready : List (Entry B)) : Prop :=
  ∀ e ∈ ready, (mem e.bid).length = e.len ∧ 0 < e.len

variable [DecidableEq B]

theorem pbufReturn_apply (pool : B → ℕ) (b b' : B) : pbufReturn pool b b' = pool b' + [b].count b' := by
  unfold pbufReturn
  by_cases h : b' = b
  · subst h
    rw [update_self, count_singleton_self]
  · rw [update_of_ne h, count_eq_zero_of_not_mem (by simpa using h)]
    rfl

theorem foldl_pbufReturn (bs : List B) (pool : B → ℕ) (b : B) :
    bs.foldl pbufReturn pool b = pool b + bs.count b := by
  induction bs generalizing pool with
  | nil => rfl
  | cons b' bs ih =>
    have hcount : ([b'] ++ bs).count b = [b'].count b + bs.count b := count_append
    rw [singleton_append] at hcount
    rw [foldl_cons, ih, pbufReturn_apply]
    omega

/-- From `k` and `ready` to `k'` and `ready'`, bytes and buffers are only moved. -/
structure Copied (mem : B → List β) (k : Copy B β) (ready : List (Entry B)) (k' : Copy B β)
    (ready' : List (Entry B)) : Prop where
  bytes : k'.out ++ slotBytes mem k'.inflight ++ readyBytes mem ready' =
    k.out ++ slotBytes mem k.inflight ++ readyBytes mem ready
  buffers : ∀ b, k'.pool b + (slotBids k'.inflight ++ ready'.map Entry.bid).count b =
    k.pool b + (slotBids k.inflight ++ ready.map Entry.bid).count b
  slot : SlotFits mem k'.inflight
  fits : Fits mem ready'

theorem Copied.trans {k'' : Copy B β} {ready'' : List (Entry B)} (h : Copied mem k ready k' ready')
    (h' : Copied mem k' ready' k'' ready'') : Copied mem k ready k'' ready'' where
  bytes := h'.bytes.trans h.bytes
  buffers b := (h'.buffers b).trans (h.buffers b)
  slot := h'.slot
  fits := h'.fits

theorem copied_drain (hslot : SlotFits mem k.inflight) (hfits : Fits mem ready) :
    Copied mem k ready (k.drain mem n) ready ∧
      ((k.drain mem n).out.length < n → (k.drain mem n).inflight = none) := by
  unfold Copy.drain
  cases hk : k.inflight with
  | none => exact ⟨⟨rfl, fun b => rfl, hslot, hfits⟩, fun _ => hk⟩
  | some e =>
    obtain ⟨hlen, hoff⟩ := hslot e hk
    have hcopy : (((mem e.bid).drop e.off).take (min (e.len - e.off) (n - k.out.length))).length =
        min (e.len - e.off) (n - k.out.length) := by
      rw [length_take, length_drop]
      omega
    have hsplit : ((mem e.bid).drop e.off).take (min (e.len - e.off) (n - k.out.length)) ++
        (mem e.bid).drop (e.off + min (e.len - e.off) (n - k.out.length)) = (mem e.bid).drop e.off := by
      rw [← drop_drop]
      exact take_append_drop ..
    simp only
    split
    next hused =>
      -- The slot is used up.
      have hend : (mem e.bid).drop (e.off + min (e.len - e.off) (n - k.out.length)) = [] :=
        drop_eq_nil_of_le (by omega)
      rw [hend, append_nil] at hsplit
      refine ⟨⟨?_, fun b => ?_, fun e' he' => ?_, hfits⟩, fun _ => rfl⟩
      · simp only [slotBytes, hk, hsplit, append_nil]
      · simp only [pbufReturn_apply, hk, slotBids, Option.map_some, Option.toList_some, Option.map_none,
          Option.toList_none, nil_append, count_append]
        omega
      · cases he'
    next hleft =>
      refine ⟨⟨?_, fun b => ?_, fun e' he' => ?_, hfits⟩, fun hshort => ?_⟩
      · simp only [slotBytes, hk]
        rw [append_assoc k.out, hsplit]
      · simp only [hk, slotBids, Option.map_some]
      · cases he'
        exact ⟨hlen, by simp only; omega⟩
      · simp only [length_append, hcopy] at hshort
        omega

theorem copied_loop (hslot : SlotFits mem k.inflight) (hfits : Fits mem ready) :
    Copied mem k ready (k.loop mem n ready).1 (k.loop mem n ready).2 ∧ (n ≤ (k.loop mem n ready).1.out.length ∨
        (k.loop mem n ready).1.inflight = none ∧ (k.loop mem n ready).2 = []) := by
  induction ready generalizing k with
  | nil =>
    obtain ⟨hdrain, hnone⟩ := copied_drain (n := n) hslot hfits
    refine ⟨hdrain, ?_⟩
    unfold Copy.loop
    rcases Nat.lt_or_ge (k.drain mem n).out.length n with hlt | hge
    · exact .inr ⟨hnone hlt, rfl⟩
    · exact .inl hge
  | cons e ready ih =>
    obtain ⟨hdrain, hnone⟩ := copied_drain (n := n) hslot hfits
    have he := hfits e mem_cons_self
    unfold Copy.loop
    simp only
    split
    next hfull => exact ⟨hdrain, .inl hfull⟩
    next hmore =>
      -- The slot is empty, and the next buffer moves into it.
      have hempty := hnone (Nat.lt_of_not_le hmore)
      have hmove : Copied mem (k.drain mem n) (e :: ready)
          { k.drain mem n with inflight := some ⟨e.bid, 0, e.len⟩ } ready := by
        refine ⟨?_, fun b => ?_, fun e' he' => ?_, fun e' he' => hfits e' (mem_cons_of_mem e he')⟩
        · simp only [hempty, slotBytes, drop_zero, readyBytes, flatMap_cons, append_assoc, nil_append]
        · rw [hempty]
          rfl
        · cases he'
          exact he
      obtain ⟨hloop, hend⟩ := ih hmove.slot hmove.fits
      exact ⟨(hdrain.trans hmove).trans hloop, hend⟩

end Copy

/-! ## The invariant -/

variable {C B β : Type*}

def Drain.woken : Drain C → Option C
  | .walk woken _ => woken
  | _ => none

def Drain.duty : Drain C → Bool
  | .walk _ last => last
  | .put => true
  | _ => false

def Closer.refs : Closer → ℤ
  | .cancel | .drop | .dropBoth => 1
  | _ => 0

def Closer.keeps : Closer → Bool
  | .idle | .dropBoth | .dropLive => true
  | _ => false

def taken (log : List (C × List β)) : List β := (log.map Prod.snd).flatten

theorem taken_append (log : List (C × List β)) (c : C) (out : List β) :
    taken (log ++ [(c, out)]) = taken log ++ out := by
  unfold taken
  rw [map_append, flatten_append, map_singleton, flatten_singleton]

def cqBytes (mem : B → List β) (cq : List (Cqe B)) : List β :=
  cq.flatMap fun q => (q.buffer.map mem).getD []

def cqBids (cq : List (Cqe B)) : List B := cq.filterMap Cqe.buffer

/-- A completion as the kernel posts it: with a buffer just when there is a payload. -/
def Cqe.Fits (mem : B → List β) (q : Cqe B) : Prop :=
  match q.buffer with
  | none => q.res ≤ 0
  | some b => q.res = (mem b).length ∧ mem b ≠ [] ∧ (mem b).length ≤ bufferSize

def Ends (requests : ℕ) : List (Cqe B) → Prop
  | [] => requests = 1
  | q :: cq => if q.more then Ends requests cq else requests = 0 ∧ cq = []

namespace State

def held (s : State C B β) : List B := slotBids s.inflight ++ s.ready.map Entry.bid ++ cqBids s.cq

def rest (s : State C B β) : List β := slotBytes s.mem s.inflight ++ readyBytes s.mem s.ready ++ cqBytes s.mem s.cq

def live (s : State C B β) : Bool := s.closer.keeps || s.armed || s.drain.duty

def liveRef (s : State C B β) : ℤ := if s.live then 1 else 0

def Quiet (s : State C B β) : Prop :=
  s.ready = [] ∧ s.inflight = none ∧ s.err = 0 ∧ s.eof = false ∧ s.armed = true

end State

structure Bytes [DecidableEq B] (s : State C B β) : Prop where
  slot : SlotFits s.mem s.inflight
  ready : Fits s.mem s.ready
  cq : ∀ q ∈ s.cq, q.Fits s.mem
  pool : ∀ b, s.pool b + s.held.count b = 1
  stream : s.frees = 0 → taken s.log ++ s.rest = s.stream
  taken : taken s.log <+: s.stream

/-- A call is in the log with the bytes that it has returned. -/
structure Logged (s : State C B β) : Prop where
  mem : ∀ c out, (c, out) ∈ s.log ↔ s.pc c = .returned (.bytes out)
  nodup : (s.log.map Prod.fst).Nodup
  room : ∀ c n, s.pc c = .parked n → n ≠ 0

structure Armed (s : State C B β) : Prop where
  armed : s.armed = true → Ends (s.queued + s.requests) s.cq
  unarmed : s.armed = false → s.queued + s.requests = 0 ∧ s.cq = []

/-- The nodes: those in `waiters`, and `l`, detached and not read. The calls in `x` are running. -/
structure Waits (x : C → Prop) (l : List C) (s : State C B β) : Prop where
  woken : s.drain.woken = l.head?
  tame : s.drain ≠ .wild
  waiters : Spells s.next s.waiters
  detached : Spells s.next l
  nodup : (s.waiters ++ l).Nodup
  parked : ∀ c ∈ s.waiters ++ l, ∃ n, s.pc c = .parked n
  unread : ∀ c, s.unread c = true ↔ c ∈ l
  known : ∀ c n, ¬x c → s.pc c = .parked n → c ∈ s.waiters ∨ c ∈ l ∨ s.wake c = true

/-- The calls in `x` are running, and have a reference too. -/
structure Refs (x : C → Prop) (s : State C B β) : Prop where
  count : ∃ k, Counted (fun c => x c ∨ ∃ n, s.pc c = .parked n) k ∧ s.refcount = k + s.closer.refs + s.liveRef
  closing : s.closing = true ↔ s.closer ≠ .idle
  duty : s.drain.duty = true → s.closer.keeps = false ∧ s.armed = false
  dropping : s.closer = .dropBoth ∨ s.closer = .dropLive → s.armed = false
  cancel : s.closing = true → s.armed = true → s.closer = .cancel ∨ s.cancelSent = true

/-- Who is in `ms_free`. -/
structure Frees (who : Option (Actor C)) (s : State C B β) : Prop where
  freeing : ∀ a, s.freeing a = true ↔ who = some a
  used : s.refcount ≠ 0 → s.frees = 0 ∧ who = none
  unused : s.refcount = 0 → s.frees + who.toList.length = 1
  touched : s.touched = false

/-- The invariant but for the bytes, with the calls in `x` running. -/
structure Core (x : C → Prop) (l : List C) (who : Option (Actor C)) (s : State C B β) : Prop where
  armed : Armed s
  waits : Waits x l s
  quiet : s.waiters ≠ [] → s.Quiet
  refs : Refs x s
  frees : Frees who s

structure Inv [DecidableEq B] (l : List C) (who : Option (Actor C)) (s : State C B β) : Prop where
  bytes : Bytes s
  logged : Logged s
  core : Core (fun _ => False) l who s

/-! ## Frames -/

section Frames

variable {x : C → Prop} {l : List C} {who : Option (Actor C)} {s s' : State C B β}

theorem Bytes.frame [DecidableEq B] (h : Bytes s)
    (hs : (s'.mem, s'.ready, s'.inflight, s'.cq, s'.pool, s'.frees, s'.log, s'.stream) =
      (s.mem, s.ready, s.inflight, s.cq, s.pool, s.frees, s.log, s.stream)) : Bytes s' := by
  cases s
  cases s'
  cases hs
  exact ⟨h.slot, h.ready, h.cq, h.pool, h.stream, h.taken⟩

theorem Logged.frame (h : Logged s) (hs : (s'.log, s'.pc) = (s.log, s.pc)) : Logged s' := by
  cases s
  cases s'
  cases hs
  exact ⟨h.mem, h.nodup, h.room⟩

theorem Armed.frame (h : Armed s)
    (hs : (s'.armed, s'.queued, s'.requests, s'.cq) = (s.armed, s.queued, s.requests, s.cq)) : Armed s' := by
  cases s
  cases s'
  cases hs
  exact ⟨h.armed, h.unarmed⟩

theorem Waits.frame (h : Waits x l s) (hs : (s'.drain, s'.next, s'.waiters, s'.pc, s'.unread, s'.wake) =
      (s.drain, s.next, s.waiters, s.pc, s.unread, s.wake)) : Waits x l s' := by
  cases s
  cases s'
  cases hs
  exact ⟨h.woken, h.tame, h.waiters, h.detached, h.nodup, h.parked, h.unread, h.known⟩

theorem Refs.frame (h : Refs x s)
    (hs : (s'.pc, s'.refcount, s'.closer, s'.armed, s'.drain, s'.closing, s'.cancelSent) =
      (s.pc, s.refcount, s.closer, s.armed, s.drain, s.closing, s.cancelSent)) : Refs x s' := by
  cases s
  cases s'
  cases hs
  exact ⟨h.count, h.closing, h.duty, h.dropping, h.cancel⟩

theorem Frees.frame (h : Frees who s)
    (hs : (s'.freeing, s'.refcount, s'.frees, s'.touched) = (s.freeing, s.refcount, s.frees, s.touched)) :
    Frees who s' := by
  cases s
  cases s'
  cases hs
  exact ⟨h.freeing, h.used, h.unused, h.touched⟩

end Frames

/-! ## References -/

theorem Closer.refs_nonneg (k : Closer) : 0 ≤ k.refs := by
  cases k <;> decide

section References

variable {x : C → Prop} {l : List C} {who : Option (Actor C)} {s : State C B β} {c : C}

theorem State.liveRef_nonneg (s : State C B β) : 0 ≤ s.liveRef := by
  unfold State.liveRef
  split <;> decide

theorem Refs.pos (h : Refs x s) (hc : x c ∨ ∃ n, s.pc c = .parked n) : 1 ≤ s.refcount := by
  obtain ⟨k, hk, hcount⟩ := h.count
  have hpos := hk.pos hc
  have hrefs := s.closer.refs_nonneg
  have hlive := s.liveRef_nonneg
  omega

theorem Refs.pos_of_live (h : Refs x s) (hlive : s.live = true) : 1 ≤ s.refcount := by
  obtain ⟨k, hk, hcount⟩ := h.count
  have hnonneg := hk.nonneg
  have hrefs := s.closer.refs_nonneg
  rw [State.liveRef, if_pos hlive] at hcount
  omega

theorem live_of_armed (h : s.armed = true) : s.live = true := by
  unfold State.live
  rw [h, Bool.or_true, Bool.true_or]

theorem live_of_keeps (h : s.closer.keeps = true) : s.live = true := by
  unfold State.live
  rw [h, Bool.true_or, Bool.true_or]

theorem live_of_duty (h : s.drain.duty = true) : s.live = true := by
  unfold State.live
  rw [h, Bool.or_true]

theorem touch_of_pos (hpos : 1 ≤ s.refcount) : s.touch = s := by
  have hne : (s.refcount == 0) = false := by
    apply beq_false_of_ne
    omega
  unfold State.touch
  rw [hne, Bool.or_false]

theorem Frees.drop [DecidableEq C] (h : Frees who s) (hpos : 1 ≤ s.refcount) (a : Actor C) :
    ∃ who', Frees who' (s.drop a) := by
  obtain ⟨hfrees, rfl⟩ := h.used (by omega)
  have hnone : ∀ a, s.freeing a = false := fun a =>
    Bool.eq_false_iff.mpr fun ha => by cases (h.freeing a).mp ha
  by_cases hlast : s.refcount - 1 = 0
  · -- The last reference: `a` goes on to free.
    refine ⟨some a, ⟨fun b => ?_, fun hne => absurd hlast hne, fun _ => ?_, h.touched⟩⟩
    · simp only [State.drop, if_pos hlast]
      by_cases hba : b = a
      · subst hba
        rw [update_self]
        exact iff_of_true rfl rfl
      · rw [update_of_ne hba, hnone]
        exact iff_of_false Bool.false_ne_true fun he => hba (Option.some.inj he).symm
    · show s.frees + 1 = 1
      rw [hfrees]
  · refine ⟨none, ⟨fun b => ?_, fun _ => ⟨hfrees, rfl⟩, fun hz => absurd hz hlast, h.touched⟩⟩
    simp only [State.drop, if_neg hlast]
    exact h.freeing b

theorem Frees.gain (h : Frees who s) (hpos : 1 ≤ s.refcount) : Frees who { s with refcount := s.refcount + 1 } where
  freeing := h.freeing
  used _ := h.used (by omega)
  unused hz := by
    have : s.refcount + 1 = 0 := hz
    omega
  touched := h.touched

theorem Refs.pos_of_not_done (h : Refs x s) (hdone : s.closer ≠ .done) : 1 ≤ s.refcount := by
  by_cases hkeeps : s.closer.keeps = true
  · exact h.pos_of_live (live_of_keeps hkeeps)
  · obtain ⟨k, hk, hcount⟩ := h.count
    have hnonneg := hk.nonneg
    have hlive := s.liveRef_nonneg
    have hrefs : s.closer.refs = 1 := by
      cases hc : s.closer with
      | cancel | drop | dropBoth => rfl
      | done => exact absurd hc hdone
      | idle | dropLive =>
        rw [hc] at hkeeps
        exact absurd rfl hkeeps
    omega

end References

/-! ## A call -/

section Calls

variable {l : List C} {who : Option (Actor C)} {s : State C B β} {c : C} {n : ℕ}

abbrev nobody (_ : C) : Prop := False

theorem Core.call (h : Core nobody l who s) (hpc : s.pc c = .idle) (hpos : 1 ≤ s.refcount) :
    Core (· = c) l who { s with refcount := s.refcount + 1 } where
  armed := h.armed.frame rfl
  waits :=
    { h.waits with
      known := fun d n _ => h.waits.known d n id }
  quiet := h.quiet
  refs :=
    { h.refs with
      count := by
        obtain ⟨k, hk, hcount⟩ := h.refs.count
        have hout : ¬(nobody c ∨ ∃ n, s.pc c = .parked n) := by
          rw [hpc]
          rintro (hc | ⟨n, hn⟩)
          · exact hc
          · cases hn
        refine ⟨k + 1, hk.gain hout fun d => ?_, ?_⟩
        · rw [false_or]
        · show s.refcount + 1 = k + 1 + s.closer.refs + s.liveRef
          omega }
  frees := h.frees.gain hpos

variable [DecidableEq C]

theorem Core.resume (h : Core nobody l who s) (hpc : s.pc c = .parked n) :
    Core (· = c) l who { s with wake := update s.wake c false } where
  armed := h.armed.frame rfl
  waits :=
    { h.waits with
      known := fun d n hd hpd => by
        have := h.waits.known d n id hpd
        rwa [← update_of_ne hd false s.wake] at this }
  quiet := h.quiet
  refs :=
    { h.refs with
      count := by
        obtain ⟨k, hk, hcount⟩ := h.refs.count
        refine ⟨k, hk.congr fun d => ?_, hcount⟩
        rw [false_or]
        refine ⟨?_, .inr⟩
        rintro (rfl | hd)
        · exact ⟨n, hpc⟩
        · exact hd }
  frees := h.frees.frame rfl

theorem Core.setPc_returned {r : Result β} (h : Core nobody l who s) (hpc : s.pc c = .idle) :
    Core nobody l who { s with pc := update s.pc c (.returned r) } := by
  have hiff : ∀ d n, update s.pc c (.returned r) d = .parked n ↔ s.pc d = .parked n := by
    intro d n
    by_cases hd : d = c
    · subst hd
      rw [update_self, hpc]
      exact iff_of_false (fun he => by cases he) fun he => by cases he
    · rw [update_of_ne hd]
  refine ⟨h.armed.frame rfl, ?_, h.quiet, ?_, h.frees.frame rfl⟩
  · refine { h.waits with parked := fun d hd => ?_, known := fun d n hx hd => h.waits.known d n hx ((hiff d n).mp hd) }
    obtain ⟨n, hn⟩ := h.waits.parked d hd
    exact ⟨n, (hiff d n).mpr hn⟩
  · obtain ⟨k, hk, hcount⟩ := h.refs.count
    refine { h.refs with count := ⟨k, hk.congr fun d => ?_, hcount⟩ }
    exact or_congr_right (exists_congr (hiff d))

theorem Waits.finish (h : Waits (· = c) l s) (hc : c ∉ l) (r : Result β) : Waits nobody l (s.finish c r) := by
  obtain ⟨hnodup, hnodup', hdisj⟩ := nodup_append.mp h.nodup
  have hne : ∀ d ∈ s.waiters.erase c ++ l, d ≠ c := by
    intro d hd
    rcases mem_append.mp hd with hmem | hmem
    · exact (hnodup.mem_erase_iff.mp hmem).1
    · rintro rfl
      exact hc hmem
  refine ⟨h.woken, h.tame, h.waiters.cut hnodup, ?_, ?_, fun d hd => ?_, h.unread, fun d n _ hpc => ?_⟩
  · exact h.detached.congr fun d hd => cut_of_notMem d s.waiters fun hd' => hdisj d hd' d hd rfl
  · exact h.nodup.sublist (erase_sublist.append_right l)
  · show ∃ n, update s.pc c _ d = .parked n
    rw [update_of_ne (hne d hd)]
    exact h.parked d ((erase_sublist.append_right l).subset hd)
  · have hpc' : update s.pc c (.returned r) d = .parked n := hpc
    have hd : d ≠ c := by
      rintro rfl
      rw [update_self] at hpc'
      cases hpc'
    rw [update_of_ne hd] at hpc'
    exact (h.known d n hd hpc').imp_left fun hmem => (mem_erase_of_ne hd).mpr hmem

theorem Refs.finish (h : Refs (· = c) s) (r : Result β) : Refs nobody (s.finish c r) :=
  { h with
    count := by
      obtain ⟨k, hk, hcount⟩ := h.count
      refine ⟨k - 1, hk.lose (.inl rfl) fun d => ?_, ?_⟩
      · show False ∨ (∃ n, update s.pc c (.returned r) d = .parked n) ↔ _
        rw [false_or]
        by_cases hd : d = c
        · subst hd
          rw [update_self]
          refine iff_of_false ?_ fun hd => hd.1 rfl
          rintro ⟨n, hn⟩
          cases hn
        · rw [update_of_ne hd]
          exact ⟨fun hpc => ⟨hd, .inr hpc⟩, fun hpc => hpc.2.resolve_left hd⟩
      · show s.refcount - 1 = k - 1 + s.closer.refs + s.liveRef
        omega }

theorem Core.finish (h : Core (· = c) l who s) (hc : c ∉ l) (r : Result β) :
    ∃ who', Core nobody l who' (s.finish c r) := by
  have hpos := h.refs.pos (c := c) (.inl rfl)
  obtain ⟨who', hwho⟩ := h.frees.drop hpos (.reader c)
  refine ⟨who', ⟨h.armed.frame rfl, h.waits.finish hc r, fun hne => h.quiet fun hnil => hne ?_, h.refs.finish r,
    hwho.frame rfl⟩⟩
  show s.waiters.erase c = []
  rw [hnil]
  rfl

theorem Waits.park (h : Waits (· = c) l s) (hc : c ∉ l) (n : ℕ) : Waits nobody l (s.park c n) := by
  have hparked : ∀ d ∈ (s.park c n).waiters ++ l, ∃ m, (s.park c n).pc d = .parked m := by
    intro d hd
    show ∃ m, update s.pc c (.parked n) d = .parked m
    by_cases hdc : d = c
    · subst hdc
      rw [update_self]
      exact ⟨n, rfl⟩
    · rw [update_of_ne hdc]
      refine h.parked d ?_
      by_cases hmem : c ∈ s.waiters
      · simpa only [State.park, if_pos hmem] using hd
      · simp only [State.park, if_neg hmem, cons_append, mem_cons] at hd
        exact hd.resolve_left hdc
  have hknown : ∀ d m, ¬nobody d → (s.park c n).pc d = .parked m →
      d ∈ (s.park c n).waiters ∨ d ∈ l ∨ (s.park c n).wake d = true := by
    intro d m _ hpc
    have hpc' : update s.pc c (.parked n) d = .parked m := hpc
    by_cases hdc : d = c
    · subst hdc
      left
      unfold State.park
      simp only
      split
      next hmem => exact hmem
      next => exact mem_cons_self
    · rw [update_of_ne hdc] at hpc'
      refine (h.known d m hdc hpc').imp_left fun hmem => ?_
      unfold State.park
      simp only
      split
      · exact hmem
      · exact mem_cons_of_mem c hmem
  -- A call that was woken by something else is still linked, and is not linked again.
  by_cases hmem : c ∈ s.waiters
  · refine ⟨h.woken, h.tame, ?_, ?_, ?_, hparked, h.unread, hknown⟩
    · simp only [State.park, if_pos hmem]
      exact h.waiters
    · simp only [State.park, if_pos hmem]
      exact h.detached
    · simp only [State.park, if_pos hmem]
      exact h.nodup
  · refine ⟨h.woken, h.tame, ?_, ?_, ?_, hparked, h.unread, hknown⟩
    · simp only [State.park, if_neg hmem]
      exact h.waiters.push hmem
    · simp only [State.park, if_neg hmem]
      exact h.detached.update_of_notMem hc
    · simp only [State.park, if_neg hmem, cons_append]
      exact nodup_cons.mpr ⟨fun hd => (mem_append.mp hd).elim hmem hc, h.nodup⟩

theorem Refs.park (h : Refs (· = c) s) (n : ℕ) : Refs nobody (s.park c n) :=
  { h with
    count := by
      obtain ⟨k, hk, hcount⟩ := h.count
      refine ⟨k, hk.congr fun d => ?_, hcount⟩
      show False ∨ (∃ m, update s.pc c (.parked n) d = .parked m) ↔ _
      rw [false_or]
      by_cases hd : d = c
      · subst hd
        rw [update_self]
        exact iff_of_true ⟨n, rfl⟩ (.inl rfl)
      · rw [update_of_ne hd]
        exact (or_iff_right hd).symm }

theorem Core.park (h : Core (· = c) l who s) (hc : c ∉ l) (hquiet : s.Quiet) (n : ℕ) :
    Core nobody l who (s.park c n) :=
  ⟨h.armed.frame rfl, h.waits.park hc n, fun _ => hquiet, h.refs.park n, h.frees.frame rfl⟩

omit [DecidableEq C] in
theorem Core.rearm {x : C → Prop} (h : Core x l who s) (hunarmed : s.armed = false) (hidle : s.closer = .idle) :
    Core x l who { s with armed := true, queued := s.queued + 1 } where
  armed := by
    obtain ⟨hzero, hcq⟩ := h.armed.unarmed hunarmed
    refine ⟨fun _ => ?_, fun he => by cases he⟩
    show Ends (s.queued + 1 + s.requests) s.cq
    rw [hcq]
    show s.queued + 1 + s.requests = 1
    omega
  waits := h.waits.frame rfl
  quiet hne := by
    have hq := h.quiet hne
    rw [State.Quiet, hunarmed] at hq
    cases hq.2.2.2.2
  refs := by
    have hkeeps : s.closer.keeps = true := by
      rw [hidle]
      rfl
    have hlive : s.liveRef = 1 := if_pos (live_of_keeps hkeeps)
    refine ⟨?_, h.refs.closing, fun hduty => ?_, fun hd => ?_, fun hclosing => ?_⟩
    · obtain ⟨k, hk, hcount⟩ := h.refs.count
      refine ⟨k, hk, ?_⟩
      rw [State.liveRef, if_pos (live_of_armed rfl)]
      rw [hlive] at hcount
      exact hcount
    · have := (h.refs.duty hduty).1
      rw [hkeeps] at this
      cases this
    · have hd' : s.closer = .dropBoth ∨ s.closer = .dropLive := hd
      rw [hidle] at hd'
      rcases hd' with hd' | hd' <;> cases hd'
    · exact absurd hidle (h.refs.closing.mp hclosing)
  frees := h.frees.frame rfl

theorem await_cases (s : State C B β) (c : C) (n : ℕ) :
    (∃ r, (∀ out, r ≠ .bytes out) ∧ s.await c n true = s.finish c r) ∨
    (s.err = 0 ∧ s.eof = false ∧ s.armed = true ∧ s.await c n true = s.park c n) ∨
    (s.err = 0 ∧ s.eof = false ∧ s.closing = false ∧ s.armed = false ∧
      s.await c n true = { s with armed := true, queued := s.queued + 1 }.park c n) := by
  unfold State.await
  split
  next => exact .inl ⟨_, (fun out hout => by cases hout), rfl⟩
  next herr =>
    have herr' : s.err = 0 := not_not.mp herr
    split
    next => exact .inl ⟨_, (fun out hout => by cases hout), rfl⟩
    next heof =>
      split
      next => exact .inl ⟨_, (fun out hout => by cases hout), rfl⟩
      next hclosing =>
        split
        next harmed => exact .inr (.inl ⟨herr', Bool.eq_false_iff.mpr heof, harmed, rfl⟩)
        next hunarmed =>
          exact .inr (.inr ⟨herr', Bool.eq_false_iff.mpr heof, Bool.eq_false_iff.mpr hclosing,
            Bool.eq_false_iff.mpr hunarmed, rfl⟩)

theorem Core.await (h : Core (· = c) l who s) (hc : c ∉ l) (hready : s.ready = []) (hslot : s.inflight = none)
    (n : ℕ) : ∃ who', Core nobody l who' (s.await c n true) := by
  rcases await_cases s c n with ⟨r, -, heq⟩ | ⟨herr, heof, harmed, heq⟩ | ⟨herr, heof, hclosing, hunarmed, heq⟩
  · rw [heq]
    exact h.finish hc r
  · rw [heq]
    exact ⟨who, h.park hc ⟨hready, hslot, herr, heof, harmed⟩ n⟩
  · have hidle : s.closer = .idle := by
      apply not_not.mp
      intro hne
      rw [h.refs.closing.mpr hne] at hclosing
      cases hclosing
    rw [heq]
    exact ⟨who, (h.rearm hunarmed hidle).park hc ⟨hready, hslot, herr, heof, rfl⟩ n⟩

omit [DecidableEq C] in
theorem Core.copyOut [DecidableEq B] {x : C → Prop} (h : Core x l who s) (n : ℕ) :
    Core x l who (s.copyOut n).1 where
  armed := h.armed.frame rfl
  waits := h.waits.frame rfl
  quiet hne := by
    obtain ⟨hready, hslot, hrest⟩ := h.quiet hne
    have hloop : Copy.loop s.mem n ⟨[], s.inflight, s.pool⟩ s.ready = (⟨[], none, s.pool⟩, []) := by
      rw [hready, hslot]
      rfl
    refine ⟨?_, ?_, hrest⟩
    · show (Copy.loop s.mem n ⟨[], s.inflight, s.pool⟩ s.ready).2 = []
      rw [hloop]
    · show (Copy.loop s.mem n ⟨[], s.inflight, s.pool⟩ s.ready).1.inflight = none
      rw [hloop]
  refs := h.refs.frame rfl
  frees := h.frees.frame rfl

end Calls

/-! ## The bytes of a call -/

section CallBytes

variable [DecidableEq C] [DecidableEq B] {l : List C} {who : Option (Actor C)} {s : State C B β} {c : C} {n : ℕ}

omit [DecidableEq C] in
theorem Bytes.copyOut (h : Bytes s) (hkept : s.frees = 0) {g : List (C × List β)}
    (hlog : Multishot.taken g = Multishot.taken s.log ++ (s.copyOut n).2) :
    Bytes { (s.copyOut n).1 with log := g } := by
  obtain ⟨hcopied, -⟩ := copied_loop (n := n) (k := ⟨[], s.inflight, s.pool⟩) h.slot h.ready
  have hstream : Multishot.taken g ++ { (s.copyOut n).1 with log := g }.rest = s.stream := by
    rw [hlog, ← h.stream hkept, append_assoc]
    congr 1
    have hbytes := hcopied.bytes
    rw [nil_append] at hbytes
    unfold State.rest
    rw [← hbytes]
    simp only [State.copyOut, append_assoc]
  refine ⟨hcopied.slot, hcopied.fits, h.cq, fun b => ?_, fun _ => hstream, ⟨_, hstream⟩⟩
  have hbuffers := hcopied.buffers b
  have hpool := h.pool b
  unfold State.held at hpool ⊢
  rw [count_append] at hpool ⊢
  simp only [State.copyOut]
  simp only at hbuffers
  omega

section

omit [DecidableEq B]

theorem Logged.bytes (h : Logged s) (hpc : ∀ r, s.pc c ≠ .returned r) (out : List β) :
    Logged ({ s with log := s.log ++ [(c, out)] }.finish c (.bytes out)) where
  mem d o := by
    show (d, o) ∈ s.log ++ [(c, out)] ↔ update s.pc c (.returned (.bytes out)) d = .returned (.bytes o)
    rw [mem_append, mem_singleton, h.mem]
    by_cases hd : d = c
    · subst hd
      rw [update_self, or_iff_right (hpc _)]
      constructor
      · intro he
        cases he
        rfl
      · intro he
        cases he
        rfl
    · rw [update_of_ne hd]
      exact or_iff_left fun he => hd (congrArg Prod.fst he)
  nodup := by
    show ((s.log ++ [(c, out)]).map Prod.fst).Nodup
    rw [map_append, nodup_append]
    refine ⟨h.nodup, nodup_singleton c, ?_⟩
    rintro d hd e he rfl
    obtain ⟨⟨d', o⟩, hmem, rfl⟩ := mem_map.mp hd
    rw [map_singleton, mem_singleton] at he
    have hd' : d' = c := he
    subst hd'
    exact hpc _ ((h.mem d' o).mp hmem)
  room d n hd := by
    have hd' : update s.pc c (.returned (.bytes out)) d = .parked n := hd
    by_cases hdc : d = c
    · subst hdc
      rw [update_self] at hd'
      cases hd'
    · rw [update_of_ne hdc] at hd'
      exact h.room d n hd'

theorem Logged.setPc (h : Logged s) (hpc : ∀ r, s.pc c ≠ .returned r) {s' : State C B β} {p : Pc β}
    (hp : ∀ out, p ≠ .returned (.bytes out)) (hroom : ∀ n, p = .parked n → n ≠ 0) (hlog : s'.log = s.log)
    (hs : s'.pc = update s.pc c p) : Logged s' where
  mem d o := by
    rw [hlog, hs, h.mem]
    by_cases hd : d = c
    · subst hd
      rw [update_self]
      exact iff_of_false (hpc _) (hp o)
    · rw [update_of_ne hd]
  nodup := by
    rw [hlog]
    exact h.nodup
  room d n hd := by
    rw [hs] at hd
    by_cases hdc : d = c
    · subst hdc
      rw [update_self] at hd
      exact hroom n hd
    · rw [update_of_ne hdc] at hd
      exact h.room d n hd

end

theorem Core.recv (hbytes : Bytes s) (hlogged : Logged s) (h : Core (· = c) l who s) (hc : c ∉ l)
    (hpc : ∀ r, s.pc c ≠ .returned r) (hn : n ≠ 0) : ∃ who', Inv l who' (s.recv c n true) := by
  have hpos := h.refs.pos (c := c) (.inl rfl)
  have hkept := (h.frees.used (by omega)).1
  obtain ⟨-, hend⟩ := copied_loop (n := n) (k := ⟨[], s.inflight, s.pool⟩) hbytes.slot hbytes.ready
  have hcore := h.copyOut n
  unfold State.recv
  split
  next s' hout =>
    -- Nothing is there: the slot and the queue are empty.
    have hs' : (s.copyOut n).1 = s' := congrArg Prod.fst hout
    have hnil : (s.copyOut n).2 = [] := congrArg Prod.snd hout
    have hempty := hend.resolve_left fun hle => by
      have hlen : n ≤ (s.copyOut n).2.length := hle
      rw [hnil] at hlen
      exact hn (Nat.le_zero.mp hlen)
    have hb : Bytes s' := by
      rw [← hs']
      exact hbytes.copyOut (n := n) (g := s.log) hkept (by rw [hnil, append_nil])
    have hl : Logged s' := by
      rw [← hs']
      exact hlogged.frame rfl
    rw [hs'] at hcore
    obtain ⟨who', hwho⟩ := hcore.await hc (by rw [← hs']; exact hempty.2) (by rw [← hs']; exact hempty.1) n
    have hpc' : ∀ r, s'.pc c ≠ .returned r := by
      rw [← hs']
      exact hpc
    rcases await_cases s' c n with ⟨r, hr, heq⟩ | ⟨-, -, -, heq⟩ | ⟨-, -, -, -, heq⟩
    · rw [heq] at hwho ⊢
      refine ⟨who', hb.frame rfl,
        hl.setPc hpc' (p := .returned r) (fun out he => ?_) (fun m he => by cases he) rfl rfl, hwho⟩
      exact hr out (Pc.returned.inj he)
    · rw [heq] at hwho ⊢
      exact ⟨who', hb.frame rfl,
        hl.setPc hpc' (p := .parked n) (fun out he => by cases he) (fun m he => by cases he; exact hn) rfl rfl, hwho⟩
    · rw [heq] at hwho ⊢
      exact ⟨who', hb.frame rfl,
        hl.setPc hpc' (p := .parked n) (fun out he => by cases he) (fun m he => by cases he; exact hn) rfl rfl, hwho⟩
  next s' b out hout =>
    -- What was copied is logged in the section in which the call returns.
    have hs' : (s.copyOut n).1 = s' := congrArg Prod.fst hout
    have hsome : (s.copyOut n).2 = b :: out := congrArg Prod.snd hout
    have hb : Bytes { s' with log := s'.log ++ [(c, b :: out)] } := by
      rw [← hs']
      refine hbytes.copyOut (n := n) hkept ?_
      rw [hsome]
      exact taken_append s.log c (b :: out)
    have hl : Logged s' := by
      rw [← hs']
      exact hlogged.frame rfl
    rw [hs'] at hcore
    have hpc' : ∀ r, s'.pc c ≠ .returned r := by
      rw [← hs']
      exact hpc
    have hcore' : Core (· = c) l who { s' with log := s'.log ++ [(c, b :: out)] } :=
      ⟨hcore.armed.frame rfl, hcore.waits.frame rfl, hcore.quiet, hcore.refs.frame rfl, hcore.frees.frame rfl⟩
    obtain ⟨who', hwho⟩ := hcore'.finish hc (.bytes (b :: out))
    exact ⟨who', hb.frame rfl, hl.bytes hpc' (b :: out), hwho⟩

end CallBytes

/-! ## The kernel -/

section Kernel

variable {x : C → Prop} {l : List C} {who : Option (Actor C)} {s : State C B β} {m : ℕ} {q : Cqe B} {cq : List (Cqe B)}

theorem Ends.append (h : Ends m cq) (hm : 0 < m) (q : Cqe B) :
    Ends (if q.more then m else m - 1) (cq ++ [q]) := by
  induction cq with
  | nil =>
    have hone : m = 1 := h
    subst hone
    cases hmore : q.more with
    | true =>
      show if q.more then _ else _
      rw [if_pos hmore]
      rfl
    | false =>
      show if q.more then _ else _
      rw [hmore]
      exact ⟨rfl, rfl⟩
  | cons q' cq ih =>
    unfold Ends at h
    show if q'.more then _ else _
    split at h
    next hmore =>
      rw [if_pos hmore]
      exact ih h
    next => omega

theorem Armed.complete (h : Armed s) (hreq : 0 < s.requests) (q : Cqe B) : Armed (s.complete q) := by
  have harmed : s.armed = true := by
    apply Bool.not_eq_false _ |>.mp
    intro hunarmed
    have := (h.unarmed hunarmed).1
    omega
  refine ⟨fun _ => ?_, fun hunarmed => ?_⟩
  · have hends := (h.armed harmed).append (by omega) q
    have hsum : (if q.more then s.queued + s.requests else s.queued + s.requests - 1) =
        s.queued + if q.more then s.requests else s.requests - 1 := by
      split
      · rfl
      · omega
    rw [hsum] at hends
    exact hends
  · have hunarmed' : s.armed = false := hunarmed
    rw [harmed] at hunarmed'
    cases hunarmed'

theorem Core.complete (h : Core x l who s) (hreq : 0 < s.requests) (q : Cqe B) : Core x l who (s.complete q) where
  armed := h.armed.complete hreq q
  waits := h.waits.frame rfl
  quiet := h.quiet
  refs := h.refs.frame rfl
  frees := h.frees.frame rfl

theorem Armed.take (h : Armed s) (hq : 0 < s.queued) :
    Armed { s with queued := s.queued - 1, requests := s.requests + 1 } := by
  have hsum : s.queued - 1 + (s.requests + 1) = s.queued + s.requests := by omega
  refine ⟨fun harmed => ?_, fun hunarmed => ?_⟩
  · show Ends (s.queued - 1 + (s.requests + 1)) s.cq
    rw [hsum]
    exact h.armed harmed
  · have := (h.unarmed hunarmed).1
    omega

theorem cqBytes_append (mem : B → List β) (cq cq' : List (Cqe B)) :
    cqBytes mem (cq ++ cq') = cqBytes mem cq ++ cqBytes mem cq' := flatMap_append ..

theorem cqBids_append (cq cq' : List (Cqe B)) : cqBids (cq ++ cq') = cqBids cq ++ cqBids cq' :=
  filterMap_append ..

theorem rest_complete (s : State C B β) (q : Cqe B) : (s.complete q).rest = s.rest ++ cqBytes s.mem [q] := by
  show _ ++ cqBytes s.mem (s.cq ++ [q]) = _
  rw [cqBytes_append, ← append_assoc]
  rfl

theorem held_complete (s : State C B β) (q : Cqe B) : (s.complete q).held = s.held ++ cqBids [q] := by
  show _ ++ cqBids (s.cq ++ [q]) = _
  rw [cqBids_append, ← append_assoc]
  rfl

variable [DecidableEq B]

theorem Bytes.postBare (h : Bytes s) {res : ℤ} (hres : res ≤ 0) (more : Bool) :
    Bytes (s.complete ⟨res, none, more⟩) where
  slot := h.slot
  ready := h.ready
  cq q hq := by
    rcases mem_append.mp hq with hq | hq
    · exact h.cq q hq
    · rw [mem_singleton.mp hq]
      exact hres
  pool b := by
    rw [held_complete]
    show s.pool b + (s.held ++ []).count b = 1
    rw [append_nil]
    exact h.pool b
  stream hkept := by
    rw [rest_complete]
    show Multishot.taken s.log ++ (s.rest ++ []) = s.stream
    rw [append_nil]
    exact h.stream hkept
  taken := h.taken

theorem Bytes.write (h : Bytes s) {b : B} (hb : b ∉ s.held) (payload : List β) :
    Bytes { s with mem := update s.mem b payload } := by
  have hmem : ∀ b' ∈ s.held, update s.mem b payload b' = s.mem b' := by
    intro b' hb'
    refine update_of_ne ?_ _ _
    rintro rfl
    exact hb hb'
  have hslot : ∀ e, s.inflight = some e → update s.mem b payload e.bid = s.mem e.bid := by
    intro e he
    refine hmem _ (mem_append_left _ (mem_append_left _ ?_))
    rw [slotBids, he]
    exact mem_singleton_self _
  have hready : ∀ e ∈ s.ready, update s.mem b payload e.bid = s.mem e.bid := by
    intro e he
    exact hmem _ (mem_append_left _ (mem_append_right _ (mem_map_of_mem he)))
  have hcq : ∀ q ∈ s.cq, ∀ b', q.buffer = some b' → update s.mem b payload b' = s.mem b' := by
    intro q hq b' hb'
    exact hmem _ (mem_append_right _ (mem_filterMap.mpr ⟨q, hq, hb'⟩))
  have hrest : { s with mem := update s.mem b payload }.rest = s.rest := by
    unfold State.rest
    congr 1
    · congr 1
      · cases he : s.inflight with
        | none => rfl
        | some e =>
          show (update s.mem b payload e.bid).drop e.off = (s.mem e.bid).drop e.off
          rw [hslot e he]
      · exact flatMap_congr hready
    · refine flatMap_congr fun q hq => ?_
      cases hb' : q.buffer with
      | none => rfl
      | some b' => exact hcq q hq b' hb'
  refine ⟨fun e he => ?_, fun e he => ?_, fun q hq => ?_, h.pool, fun hkept => ?_, h.taken⟩
  · show (update s.mem b payload e.bid).length = _ ∧ _
    rw [hslot e he]
    exact h.slot e he
  · show (update s.mem b payload e.bid).length = _ ∧ _
    rw [hready e he]
    exact h.ready e he
  · have hfits := h.cq q hq
    unfold Cqe.Fits at hfits ⊢
    split
    next hb' =>
      rw [hb'] at hfits
      exact hfits
    next b' hb' =>
      rw [hb'] at hfits
      show q.res = ((update s.mem b payload b').length : ℤ) ∧ update s.mem b payload b' ≠ [] ∧
        (update s.mem b payload b').length ≤ bufferSize
      rw [hcq q hq b' hb']
      exact hfits
  · rw [hrest]
    exact h.stream hkept

theorem Bytes.post (h : Bytes s) {b : B} (hb : 0 < s.pool b) {payload : List β} (hne : payload ≠ [])
    (hlen : payload.length ≤ bufferSize) (more : Bool) :
    Bytes ({ s with
      mem := update s.mem b payload
      pool := update s.pool b (s.pool b - 1)
      stream := s.stream ++ payload }.complete ⟨payload.length, some b, more⟩) := by
  -- The buffer is in the pool, so nobody is going to read it.
  have hzero : s.held.count b = 0 := by
    have := h.pool b
    omega
  have hw := h.write (count_eq_zero.mp hzero) payload
  have hself : update s.mem b payload b = payload := update_self ..
  refine ⟨hw.slot, hw.ready, fun q hq => ?_, fun b' => ?_, fun hkept => ?_, ?_⟩
  · rcases mem_append.mp hq with hq | hq
    · exact hw.cq q hq
    · rw [mem_singleton.mp hq]
      show _ = ((update s.mem b payload b).length : ℤ) ∧ update s.mem b payload b ≠ [] ∧
        (update s.mem b payload b).length ≤ bufferSize
      rw [hself]
      exact ⟨rfl, hne, hlen⟩
  · rw [held_complete]
    show update s.pool b (s.pool b - 1) b' + (s.held ++ [b]).count b' = 1
    have hpool := h.pool b'
    rw [count_append]
    by_cases hb' : b' = b
    · subst hb'
      rw [update_self, count_singleton_self]
      omega
    · rw [update_of_ne hb', count_eq_zero_of_not_mem (a := b') (l := [b]) (by simpa using hb')]
      exact hpool
  · rw [rest_complete, ← append_assoc]
    show Multishot.taken s.log ++ _ ++ cqBytes (update s.mem b payload) [_] = s.stream ++ payload
    have hpayload : cqBytes (update s.mem b payload) [⟨payload.length, some b, more⟩] = payload := by
      show update s.mem b payload b ++ [] = payload
      rw [hself, append_nil]
    rw [hpayload, ← hw.stream hkept]
    rfl
  · exact h.taken.trans (prefix_append _ _)

end Kernel

/-! ## The drain -/

section Drain

variable {x : C → Prop} {l : List C} {who : Option (Actor C)} {s : State C B β} {q : Cqe B} {cq : List (Cqe B)}

theorem deliver_cases (hq : q.Fits s.mem) :
    (q.buffer = none ∧ ∃ err eof, s.deliver q = { s with err := err, eof := eof }) ∨
    (∃ b, q.buffer = some b ∧ 0 < (s.mem b).length ∧
      s.deliver q = { s with ready := s.ready ++ [⟨b, (s.mem b).length⟩] }) := by
  unfold Cqe.Fits at hq
  unfold State.deliver
  cases hb : q.buffer with
  | none =>
    left
    refine ⟨rfl, ?_⟩
    simp only
    split
    · exact ⟨s.err, true, rfl⟩
    · split
      · exact ⟨-q.res, s.eof, rfl⟩
      · exact ⟨s.err, s.eof, rfl⟩
  | some b =>
    rw [hb] at hq
    obtain ⟨hres, hne, hlen⟩ := hq
    have hpos : 0 < (s.mem b).length := length_pos_of_ne_nil hne
    have hdec : decide (0 < q.res) = true := by
      rw [hres]
      exact decide_eq_true (by omega)
    have hmod : q.res.toNat % 65536 = (s.mem b).length := by
      rw [hres, Int.toNat_natCast]
      unfold bufferSize at hlen
      exact Nat.mod_eq_of_lt (by omega)
    refine .inr ⟨b, rfl, hpos, ?_⟩
    rw [hdec]
    simp only
    rw [hmod]

theorem Bytes.onCqe [DecidableEq C] [DecidableEq B] (h : Bytes s) (hcq : s.cq = q :: cq) :
    Bytes ({ s with cq := cq }.onCqe q) := by
  have hq := h.cq q (hcq ▸ mem_cons_self)
  have hcq' : ∀ q' ∈ cq, q'.Fits s.mem := fun q' hq' => h.cq q' (hcq ▸ mem_cons_of_mem q hq')
  have hpool := h.pool
  have hstream := h.stream
  unfold State.held at hpool
  unfold State.rest at hstream
  rw [hcq] at hpool hstream
  rcases deliver_cases (s := { s with cq := cq }) hq with ⟨hb, err, eof, hd⟩ | ⟨b, hb, hpos, hd⟩
  · have hbids : cqBids (q :: cq) = cqBids cq := filterMap_cons_none hb
    have hbytes : cqBytes s.mem (q :: cq) = cqBytes s.mem cq := by
      show (q.buffer.map s.mem).getD [] ++ cqBytes s.mem cq = _
      rw [hb]
      rfl
    rw [hbids] at hpool
    rw [hbytes] at hstream
    unfold State.onCqe
    rw [hd]
    exact ⟨h.slot, h.ready, hcq', hpool, hstream, h.taken⟩
  · -- The buffer moves from the completions to the end of the ready queue.
    have hbids : cqBids (q :: cq) = b :: cqBids cq := filterMap_cons_some hb
    have hbytes : cqBytes s.mem (q :: cq) = s.mem b ++ cqBytes s.mem cq := by
      show (q.buffer.map s.mem).getD [] ++ cqBytes s.mem cq = _
      rw [hb]
      rfl
    unfold State.onCqe
    rw [hd]
    refine ⟨h.slot, fun e he => ?_, hcq', fun b' => ?_, fun hkept => ?_, h.taken⟩
    · rcases mem_append.mp he with he | he
      · exact h.ready e he
      · rw [mem_singleton.mp he]
        exact ⟨rfl, hpos⟩
    · have hp := hpool b'
      rw [hbids] at hp
      show s.pool b' + (slotBids s.inflight ++ (s.ready ++ [(⟨b, (s.mem b).length⟩ : Entry B)]).map Entry.bid ++
        cqBids cq).count b' = 1
      rw [map_append, map_singleton, append_assoc, append_assoc, singleton_append, ← append_assoc]
      exact hp
    · have hs := hstream hkept
      rw [hbytes] at hs
      have hready : readyBytes s.mem (s.ready ++ [⟨b, (s.mem b).length⟩]) = readyBytes s.mem s.ready ++ s.mem b := by
        unfold readyBytes
        rw [flatMap_append, flatMap_singleton]
      show Multishot.taken s.log ++ (slotBytes s.mem s.inflight ++
        readyBytes s.mem (s.ready ++ [⟨b, (s.mem b).length⟩]) ++ cqBytes s.mem cq) = s.stream
      rw [hready, ← hs]
      simp only [append_assoc]

theorem Waits.nil_of_woken (h : Waits x l s) (hd : s.drain.woken = none) : l = [] := by
  rw [h.woken] at hd
  exact List.head?_eq_none_iff.mp hd

theorem Armed.of_cq (h : Armed s) (hcq : s.cq = q :: cq) : s.armed = true := by
  apply Bool.not_eq_false _ |>.mp
  intro hunarmed
  have := (h.unarmed hunarmed).2
  rw [hcq] at this
  cases this

theorem Armed.onCqe (h : Armed s) (hcq : s.cq = q :: cq) {s' : State C B β} (hs : s'.armed = (s.armed && q.more))
    (hs' : (s'.queued, s'.requests, s'.cq) = (s.queued, s.requests, cq)) : Armed s' := by
  have harmed := h.of_cq hcq
  have hends := h.armed harmed
  rw [hcq] at hends
  unfold Ends at hends
  cases s'
  cases hs'
  rw [harmed, Bool.true_and] at hs
  refine ⟨fun harmed' => ?_, fun hunarmed => ?_⟩
  · rw [hs] at harmed'
    rw [if_pos harmed'] at hends
    exact hends
  · rw [hs] at hunarmed
    rw [if_neg (by rw [hunarmed]; exact Bool.false_ne_true)] at hends
    exact hends

theorem Refs.setDrain (h : Refs x s) {d : Drain C} (hd : d.duty = s.drain.duty) : Refs x { s with drain := d } := by
  have hlive : State.live { s with drain := d } = s.live := by
    unfold State.live
    rw [← hd]
  refine ⟨?_, h.closing, fun hduty => h.duty (hd.symm.trans hduty), h.dropping, h.cancel⟩
  obtain ⟨k, hk, hcount⟩ := h.count
  refine ⟨k, hk, ?_⟩
  unfold State.liveRef at hcount ⊢
  rw [hlive]
  exact hcount

variable [DecidableEq C]

theorem Waits.detach (h : Waits x [] s) (more : Bool) : Waits x s.waiters (s.detach more) where
  woken := rfl
  tame he := by cases he
  waiters := trivial
  detached := h.waiters
  nodup := (nodup_append.mp h.nodup).1
  parked c hc := h.parked c (mem_append_left [] hc)
  unread c := by
    show (s.unread c || decide (c ∈ s.waiters)) = true ↔ _
    rw [Bool.or_eq_true, decide_eq_true_iff, h.unread]
    exact or_iff_right not_mem_nil
  known c n hx hc := by
    rcases h.known c n hx hc with hmem | hmem | hw
    · exact .inr (.inl hmem)
    · cases hmem
    · exact .inr (.inr hw)

theorem Refs.detach (h : Refs x s) (harmed : s.armed = true) (more : Bool) : Refs x (s.detach more) := by
  have hdrop : ¬(s.closer = .dropBoth ∨ s.closer = .dropLive) := by
    intro hd
    rw [h.dropping hd] at harmed
    cases harmed
  have hkeeps : s.closing = true → s.closer.keeps = false := by
    intro hc
    cases hk : s.closer with
    | idle => exact absurd hk (h.closing.mp hc)
    | dropBoth => exact absurd (.inl hk) hdrop
    | dropLive => exact absurd (.inr hk) hdrop
    | _ => rfl
  -- If nobody closes, the live reference stays; if somebody does, it is the end of the multishot that drops it.
  have hlive : (s.detach more).live = true := by
    show (s.closer.keeps || (s.armed && more) || (s.closing && !more)) = true
    cases hc : s.closing with
    | false =>
      have hidle : s.closer = .idle := by
        apply not_not.mp
        intro hne
        rw [h.closing.mpr hne] at hc
        cases hc
      rw [hidle]
      rfl
    | true =>
      rw [harmed]
      cases more with
      | false => exact Bool.or_true _
      | true =>
        show (s.closer.keeps || true || false) = true
        rw [Bool.or_true, Bool.true_or]
  refine ⟨?_, h.closing, fun hduty => ?_, fun hd => absurd hd hdrop, fun hc harmed' => h.cancel hc harmed⟩
  · obtain ⟨k, hk, hcount⟩ := h.count
    refine ⟨k, hk, ?_⟩
    rw [State.liveRef, if_pos (live_of_armed harmed)] at hcount
    rw [State.liveRef, if_pos hlive]
    exact hcount
  · obtain ⟨hc, hmore⟩ := Bool.and_eq_true_iff.mp (show (s.closing && !more) = true from hduty)
    rw [Bool.not_eq_true_eq_eq_false] at hmore
    refine ⟨hkeeps hc, ?_⟩
    show (s.armed && more) = false
    rw [hmore, Bool.and_false]

theorem Core.onCqe (h : Core x l who s) (hcq : s.cq = q :: cq) (hfits : q.Fits s.mem) (hidle : s.drain = .idle) :
    Core x s.waiters who ({ s with cq := cq }.onCqe q) := by
  obtain rfl : l = [] := h.waits.nil_of_woken (by rw [hidle]; rfl)
  have harmed := h.armed.of_cq hcq
  have hd := deliver_cases (s := { s with cq := cq }) hfits
  unfold State.onCqe
  rcases hd with ⟨-, err, eof, hd⟩ | ⟨b, -, -, hd⟩
  · rw [hd]
    exact ⟨h.armed.onCqe hcq rfl rfl,
      Waits.detach (s := { s with cq := cq, err := err, eof := eof }) (h.waits.frame rfl) q.more,
      fun hne => absurd rfl hne,
      Refs.detach (s := { s with cq := cq, err := err, eof := eof }) (h.refs.frame rfl) harmed q.more,
      h.frees.frame rfl⟩
  · rw [hd]
    exact ⟨h.armed.onCqe hcq rfl rfl,
      Waits.detach (s := { s with cq := cq, ready := s.ready ++ [⟨b, (s.mem b).length⟩] }) (h.waits.frame rfl) q.more,
      fun hne => absurd rfl hne,
      Refs.detach (s := { s with cq := cq, ready := s.ready ++ [⟨b, (s.mem b).length⟩] }) (h.refs.frame rfl) harmed
        q.more,
      h.frees.frame rfl⟩

variable {w : C} {last : Bool}

theorem Core.readNode (h : Core x l who s) (hd : s.drain = .walk (some w) last) :
    ∃ l', Core x l' who (s.readNode w last) := by
  have hwoken := h.waits.woken
  rw [hd] at hwoken
  cases l with
  | nil => cases hwoken
  | cons w' l =>
    obtain rfl : w = w' := Option.some.inj hwoken
    obtain ⟨n, hpc⟩ := h.waits.parked w (mem_append_right _ mem_cons_self)
    have hnodup : (s.waiters ++ l).Nodup := h.waits.nodup.sublist ((sublist_cons_self w l).append_left _)
    have hw : w ∉ l := (nodup_cons.mp (nodup_append.mp h.waits.nodup).2.1).1
    have hread : s.readNode w last = { s with
          drain := .walk (s.next w) last
          wake := update s.wake w true
          unread := update s.unread w false } := by
      unfold State.readNode
      rw [hpc]
    rw [hread]
    refine ⟨l, h.armed.frame rfl, ?_, h.quiet, ?_, h.frees.frame rfl⟩
    · refine ⟨h.waits.detached.1, (fun he => by cases he), h.waits.waiters, h.waits.detached.2, hnodup, fun c hc => ?_,
        fun c => ?_, fun c n hx hc => ?_⟩
      · exact h.waits.parked c (((sublist_cons_self w l).append_left _).subset hc)
      · show update s.unread w false c = true ↔ c ∈ l
        by_cases hcw : c = w
        · subst hcw
          rw [update_self]
          exact iff_of_false Bool.false_ne_true hw
        · rw [update_of_ne hcw, h.waits.unread]
          exact mem_cons.trans (or_iff_right hcw)
      · show c ∈ s.waiters ∨ c ∈ l ∨ update s.wake w true c = true
        by_cases hcw : c = w
        · subst hcw
          rw [update_self]
          exact .inr (.inr rfl)
        · rw [update_of_ne hcw]
          rcases h.waits.known c n hx hc with hmem | hmem | hwake
          · exact .inl hmem
          · exact .inr (.inl (mem_of_ne_of_mem hcw hmem))
          · exact .inr (.inr hwake)
    · have hduty : Drain.duty (.walk (s.next w) last) = s.drain.duty := by
        rw [hd]
        rfl
      exact (h.refs.setDrain hduty).frame rfl

omit [DecidableEq C] in
theorem Core.walkEnd (h : Core x l who s) (hd : s.drain = .walk none last) :
    Core x [] who { s with drain := if last then .put else .idle } := by
  obtain rfl : l = [] := h.waits.nil_of_woken (by rw [hd]; rfl)
  have hduty : Drain.duty (if last then Drain.put else .idle : Drain C) = s.drain.duty := by
    rw [hd]
    cases last <;> rfl
  refine ⟨h.armed.frame rfl, ?_, h.quiet, h.refs.setDrain hduty, h.frees.frame rfl⟩
  refine { h.waits with woken := ?_, tame := ?_ }
  · cases last <;> rfl
  · cases last <;> exact fun he => by cases he

theorem Core.drainPut (h : Core x l who s) (hd : s.drain = .put) :
    ∃ who', Core x l who' ({ s with drain := .idle }.put .drain) := by
  have hduty : s.drain.duty = true := by
    rw [hd]
    rfl
  obtain ⟨hkeeps, hunarmed⟩ := h.refs.duty hduty
  have hpos := h.refs.pos_of_live (live_of_duty hduty)
  obtain ⟨who', hwho⟩ := h.frees.drop hpos .drain
  have hwoken : s.drain.woken = none := by
    rw [hd]
    rfl
  unfold State.put
  rw [touch_of_pos (s := { s with drain := .idle }) hpos]
  refine ⟨who', h.armed.frame rfl, ?_, h.quiet, ?_, hwho.frame rfl⟩
  · exact { h.waits with woken := hwoken.symm.trans h.waits.woken, tame := (fun he => by cases he) }
  · refine ⟨?_, h.refs.closing, (fun he => by cases he), h.refs.dropping, h.refs.cancel⟩
    obtain ⟨k, hk, hcount⟩ := h.refs.count
    refine ⟨k, hk, ?_⟩
    have hgone : (s.closer.keeps || s.armed || false) = false := by
      rw [hkeeps, hunarmed]
      rfl
    rw [State.liveRef, if_pos (live_of_duty hduty)] at hcount
    show s.refcount - 1 = k + s.closer.refs + if (s.closer.keeps || s.armed || false) then 1 else 0
    rw [hgone, hcount]
    show k + s.closer.refs + 1 - 1 = k + s.closer.refs + 0
    omega

end Drain

/-! ## The close, and the end -/

section Close

variable {x : C → Prop} {l : List C} {who : Option (Actor C)} {s : State C B β}

theorem Refs.setCloser (h : Refs x s) {s' : State C B β} {k : Closer} {v : ℤ} (hidle : k ≠ .idle)
    (hs : (s'.pc, s'.armed, s'.drain, s'.closing, s'.closer) = (s.pc, s.armed, s.drain, true, k))
    (hlive : s'.liveRef = v) (hcount : s'.refcount + (s.closer.refs + s.liveRef) = s.refcount + (k.refs + v))
    (hduty : s.drain.duty = true → k.keeps = false)
    (hdropping : k = .dropBoth ∨ k = .dropLive → s.armed = false)
    (hcancel : s.armed = true → k = .cancel ∨ s'.cancelSent = true) : Refs x s' := by
  simp only [Prod.mk.injEq] at hs
  obtain ⟨hpc, harmed, hdrain, hclosing, rfl⟩ := hs
  obtain ⟨j, hj, hrefs⟩ := h.count
  refine ⟨⟨j, ?_, by omega⟩, iff_of_true hclosing hidle, fun hd => ?_, fun hd => ?_, fun _ ha => ?_⟩
  · rw [hpc]
    exact hj
  · rw [hdrain] at hd
    rw [harmed]
    exact ⟨hduty hd, (h.duty hd).2⟩
  · rw [harmed]
    exact hdropping hd
  · rw [harmed] at ha
    exact hcancel ha

theorem liveRef_of_live (h : s.live = true) : s.liveRef = 1 := if_pos h

theorem Core.close (h : Core x l who s) (hidle : s.closer = .idle) : Core x l who { s.touch with
      refcount := s.refcount + 1
      closing := true
      closer := if s.armed then .cancel else .dropBoth } := by
  have hkeeps : s.closer.keeps = true := by
    rw [hidle]
    rfl
  have hlive := live_of_keeps hkeeps
  have hpos := h.refs.pos_of_live hlive
  have hduty : s.drain.duty = true → False := by
    intro hd
    rw [(h.refs.duty hd).1] at hkeeps
    cases hkeeps
  rw [touch_of_pos hpos]
  refine ⟨h.armed.frame rfl, h.waits.frame rfl, h.quiet, ?_, (h.frees.gain hpos).frame rfl⟩
  cases harmed : s.armed with
  | true =>
    refine h.refs.setCloser (k := .cancel) (fun he => by cases he) rfl (liveRef_of_live (live_of_armed harmed)) ?_
      (fun hd => (hduty hd).elim) (fun hd => ?_) fun _ => .inl rfl
    · rw [hidle, liveRef_of_live hlive]
      exact Int.add_assoc ..
    · rcases hd with hd | hd <;> cases hd
  | false =>
    refine h.refs.setCloser (k := .dropBoth) (fun he => by cases he) rfl (liveRef_of_live (live_of_keeps rfl)) ?_
      (fun hd => (hduty hd).elim) (fun _ => harmed) fun harmed' => ?_
    · rw [hidle, liveRef_of_live hlive]
      exact Int.add_assoc ..
    · rw [harmed] at harmed'
      cases harmed'

theorem Core.cancelSent (h : Core x l who s) (hc : s.closer = .cancel) :
    Core x l who { s with closer := .drop, cancelSent := true } := by
  have hclosing : s.closing = true := h.refs.closing.mpr (by rw [hc]; exact fun he => by cases he)
  refine ⟨h.armed.frame rfl, h.waits.frame rfl, h.quiet, ?_, h.frees.frame rfl⟩
  refine h.refs.setCloser (k := .drop) (v := s.liveRef) (fun he => by cases he) (by rw [hclosing]) ?_ ?_
    (fun _ => rfl) (fun hd => ?_) fun _ => .inr rfl
  · unfold State.liveRef State.live
    rw [hc]
    rfl
  · rw [hc]
    rfl
  · rcases hd with hd | hd <;> cases hd

variable [DecidableEq C]

theorem Core.closePut (h : Core x l who s) {k : Closer} {v : ℤ} (hidle : k ≠ .idle) (hclosing : s.closing = true)
    (hv : State.liveRef { s with closer := k } = v) (hcount : s.closer.refs + s.liveRef = k.refs + v + 1)
    (hduty : s.drain.duty = true → k.keeps = false)
    (hdropping : k = .dropBoth ∨ k = .dropLive → s.armed = false)
    (hcancel : s.armed = true → k = .cancel ∨ s.cancelSent = true) :
    ∃ who', Core x l who' ({ s with closer := k }.put .closer) := by
  have hpos : 1 ≤ s.refcount := by
    obtain ⟨j, hj, hrefs⟩ := h.refs.count
    have hnonneg := hj.nonneg
    have hk := k.refs_nonneg
    have hlive := State.liveRef_nonneg { s with closer := k }
    rw [hv] at hlive
    omega
  obtain ⟨who', hwho⟩ := h.frees.drop hpos .closer
  unfold State.put
  rw [touch_of_pos (s := { s with closer := k }) hpos]
  refine ⟨who', h.armed.frame rfl, h.waits.frame rfl, h.quiet, ?_, hwho.frame rfl⟩
  refine h.refs.setCloser (k := k) hidle (by simp only [State.drop, hclosing]) hv ?_ hduty hdropping hcancel
  show s.refcount - 1 + (s.closer.refs + s.liveRef) = s.refcount + (k.refs + v)
  omega

theorem Core.step_closePut [DecidableEq B] (h : Core x l who s) {s' : State C B β}
    (hstep : step s .closePut = some s') : ∃ who', Core x l who' s' := by
  simp only [step] at hstep
  split at hstep
  · cases hstep
  · cases hcl : s.closer with
    | drop =>
      rw [hcl] at hstep
      cases hstep
      have hclosing : s.closing = true := h.refs.closing.mpr (by rw [hcl]; exact fun he => by cases he)
      refine h.closePut (v := s.liveRef) (fun he => by cases he) hclosing ?_ ?_ (fun _ => rfl) (fun hd => ?_)
        fun ha => ?_
      · unfold State.liveRef State.live
        rw [hcl]
        rfl
      · rw [hcl]
        show 1 + s.liveRef = 0 + s.liveRef + 1
        omega
      · rcases hd with hd | hd <;> cases hd
      · rcases h.refs.cancel hclosing ha with hc | hs
        · rw [hcl] at hc
          cases hc
        · exact .inr hs
    | dropBoth =>
      rw [hcl] at hstep
      cases hstep
      have hclosing : s.closing = true := h.refs.closing.mpr (by rw [hcl]; exact fun he => by cases he)
      have hunarmed := h.refs.dropping (.inl hcl)
      have hkeeps : s.closer.keeps = true := by
        rw [hcl]
        rfl
      refine h.closePut (fun he => by cases he) hclosing (liveRef_of_live (live_of_keeps rfl)) ?_ (fun hd => ?_)
        (fun _ => hunarmed) fun ha => ?_
      · rw [liveRef_of_live (live_of_keeps hkeeps), hcl]
        rfl
      · rw [(h.refs.duty hd).1] at hkeeps
        cases hkeeps
      · rw [hunarmed] at ha
        cases ha
    | dropLive =>
      -- The live reference: neither the multishot nor the drain has it.
      rw [hcl] at hstep
      cases hstep
      have hclosing : s.closing = true := h.refs.closing.mpr (by rw [hcl]; exact fun he => by cases he)
      have hunarmed := h.refs.dropping (.inr hcl)
      have hkeeps : s.closer.keeps = true := by
        rw [hcl]
        rfl
      have hduty : s.drain.duty = false := by
        apply Bool.eq_false_iff.mpr
        intro hd
        rw [(h.refs.duty hd).1] at hkeeps
        cases hkeeps
      have hgone : State.liveRef { s with closer := .done } = 0 := by
        unfold State.liveRef State.live
        simp only
        rw [hunarmed, hduty]
        rfl
      refine h.closePut (fun he => by cases he) hclosing hgone ?_ (fun _ => rfl) (fun hd => ?_) fun ha => ?_
      · rw [liveRef_of_live (live_of_keeps hkeeps), hcl]
        rfl
      · rcases hd with hd | hd <;> cases hd
      · rw [hunarmed] at ha
        cases ha
    | idle | cancel | done =>
      rw [hcl] at hstep
      cases hstep

variable [DecidableEq B]

theorem Frees.free (h : Frees who s) {a : Actor C} (ha : s.freeing a = true) :
    Frees none { s.free with freeing := update s.freeing a false } := by
  have hwho := (h.freeing a).mp ha
  have hzero : s.refcount = 0 := by
    apply not_not.mp
    intro hne
    rw [(h.used hne).2] at hwho
    cases hwho
  have hunused := h.unused hzero
  rw [hwho] at hunused
  refine ⟨fun b => ?_, fun hne => absurd hzero hne, fun _ => ?_, h.touched⟩
  · show update s.freeing a false b = true ↔ none = some b
    refine iff_of_false ?_ fun he => by cases he
    by_cases hb : b = a
    · subst hb
      rw [update_self]
      exact Bool.false_ne_true
    · rw [update_of_ne hb]
      intro hfb
      have := (h.freeing b).mp hfb
      rw [hwho] at this
      exact hb (Option.some.inj this).symm
  · show s.frees + 1 + 0 = 1
    exact hunused

omit [DecidableEq C] in
theorem Bytes.free (h : Bytes s) : Bytes s.free where
  slot e he := by cases he
  ready e he := by cases he
  cq := h.cq
  pool b := by
    have hpool := h.pool b
    unfold State.held at hpool
    rw [count_append, count_append] at hpool
    show (s.ready.map Entry.bid ++ slotBids s.inflight).foldl pbufReturn s.pool b +
      (slotBids none ++ [] ++ cqBids s.cq).count b = 1
    rw [foldl_pbufReturn, count_append]
    show s.pool b + _ + (cqBids s.cq).count b = 1
    omega
  stream hkept := by cases hkept
  taken := h.taken

end Close

/-! ## Runs -/

/-- No submission fails, and no call resumes while its node is detached and not read. -/
def Orderly (s : State C B β) : Action C B β → Prop
  | .call _ _ ok => ok = true
  | .resume c ok => ok = true ∧ s.unread c = false
  | .cancel ok => ok = true
  | _ => True

section Runs

variable [DecidableEq C] [DecidableEq B] {l : List C} {who : Option (Actor C)} {s s' : State C B β}

omit [DecidableEq C] in
theorem Inv.init (h : Init s) : Inv [] none s := by
  have hrest : s.rest = [] := by
    unfold State.rest
    rw [h.inflight, h.ready, h.cq]
    rfl
  have hheld : s.held = [] := by
    unfold State.held
    rw [h.inflight, h.ready, h.cq]
    rfl
  have hkeeps : s.closer.keeps = true := by
    rw [h.closer]
    rfl
  have htaken : taken s.log = [] := by
    rw [h.log]
    rfl
  refine ⟨⟨?_, ?_, ?_, fun b => ?_, fun _ => ?_, ?_⟩, ⟨fun c out => ?_, ?_, fun c n hpc => ?_⟩,
    ⟨⟨fun _ => ?_, fun he => ?_⟩, ⟨?_, ?_, ?_, trivial, ?_, fun c hc => ?_, fun c => ?_, fun c n _ hpc => ?_⟩,
      fun hne => absurd h.waiters hne,
      ⟨⟨0, counted_zero fun c hc => ?_, ?_⟩, ?_, fun hd => ?_, fun hd => ?_, fun hc => ?_⟩,
      ⟨fun a => ?_, fun _ => ⟨h.frees, rfl⟩, fun hz => ?_, h.touched⟩⟩⟩
  · rw [h.inflight]
    exact fun e he => by cases he
  · rw [h.ready]
    exact fun e he => by cases he
  · rw [h.cq]
    exact fun q hq => by cases hq
  · rw [h.pool, hheld]
    rfl
  · rw [htaken, hrest, h.stream]
    rfl
  · rw [htaken]
    exact nil_prefix
  · rw [h.log, h.pc]
    exact iff_of_false not_mem_nil fun he => by cases he
  · rw [h.log]
    exact nodup_nil
  · rw [h.pc] at hpc
    cases hpc
  · rw [h.cq, h.queued, h.requests]
    rfl
  · rw [h.armed] at he
    cases he
  · rw [h.drain]
    rfl
  · rw [h.drain]
    exact fun he => by cases he
  · rw [h.waiters]
    trivial
  · rw [h.waiters]
    exact nodup_nil
  · rw [h.waiters] at hc
    cases hc
  · rw [h.unread]
    exact iff_of_false Bool.false_ne_true not_mem_nil
  · rw [h.pc] at hpc
    cases hpc
  · rcases hc with hc | ⟨n, hc⟩
    · exact hc
    · rw [h.pc] at hc
      cases hc
  · rw [h.refcount, h.closer, liveRef_of_live (live_of_keeps hkeeps)]
    rfl
  · rw [h.closing, h.closer]
    exact iff_of_false Bool.false_ne_true fun hne => hne rfl
  · rw [h.drain] at hd
    cases hd
  · rw [h.closer] at hd
    rcases hd with hd | hd <;> cases hd
  · rw [h.closing] at hc
    cases hc
  · rw [h.freeing]
    exact iff_of_false Bool.false_ne_true fun he => by cases he
  · rw [h.refcount] at hz
    cases hz

section

variable (h : Inv l who s)
include h

theorem Inv.call {c : C} {n : ℕ} (hstep : step s (.call c n true) = some s') : ∃ who', Inv l who' s' := by
  simp only [step] at hstep
  cases hpc : s.pc c with
  | idle =>
    rw [hpc] at hstep
    simp only at hstep
    split at hstep
    next => cases hstep
    next hdone =>
      have hret : ∀ r, s.pc c ≠ .returned r := by
        rw [hpc]
        exact fun r he => by cases he
      split at hstep <;> cases hstep
      · refine ⟨who, h.bytes.frame rfl,
          h.logged.setPc hret (p := .returned .zero) (fun out he => by cases he) (fun m he => by cases he) rfl rfl, ?_⟩
        exact h.core.setPc_returned hpc
      next hn =>
        have hpos := h.core.refs.pos_of_not_done hdone
        rw [touch_of_pos hpos]
        have hc : c ∉ l := by
          intro hc
          obtain ⟨m, hm⟩ := h.core.waits.parked c (mem_append_right _ hc)
          rw [hpc] at hm
          cases hm
        exact Core.recv (h.bytes.frame rfl) (h.logged.frame rfl) (h.core.call hpc hpos) hc hret hn
  | parked m | returned r =>
    rw [hpc] at hstep
    cases hstep

theorem Inv.resume {c : C} (hunread : s.unread c = false)
    (hstep : step s (.resume c true) = some s') : ∃ who', Inv l who' s' := by
  have hc : c ∉ l := by
    rw [← h.core.waits.unread, hunread]
    exact Bool.false_ne_true
  simp only [step] at hstep
  cases hpc : s.pc c with
  | parked n =>
    rw [hpc] at hstep
    simp only at hstep
    split at hstep
    · have hpos := h.core.refs.pos (c := c) (.inr ⟨n, hpc⟩)
      have hcore := h.core.resume hpc
      have hret : ∀ r, s.pc c ≠ .returned r := by
        rw [hpc]
        exact fun r he => by cases he
      rw [touch_of_pos hpos] at hstep
      split at hstep <;> cases hstep
      · obtain ⟨who', hwho⟩ := hcore.finish hc .signal
        exact ⟨who', h.bytes.frame rfl,
          h.logged.setPc hret (p := .returned .signal) (fun out he => by cases he) (fun m he => by cases he) rfl rfl, hwho⟩
      next => exact Core.recv (h.bytes.frame rfl) (h.logged.frame rfl) hcore hc hret (h.logged.room c n hpc)
    · cases hstep
  | idle | returned r =>
    rw [hpc] at hstep
    cases hstep

theorem Inv.stray (c : C) : Inv l who { s with wake := update s.wake c true } := by
  refine ⟨h.bytes.frame rfl, h.logged.frame rfl, h.core.armed.frame rfl, ?_, h.core.quiet, h.core.refs.frame rfl,
    h.core.frees.frame rfl⟩
  refine { h.core.waits with known := fun d n hx hd => ?_ }
  show d ∈ s.waiters ∨ d ∈ l ∨ update s.wake c true d = true
  by_cases hdc : d = c
  · subst hdc
    rw [update_self]
    exact .inr (.inr rfl)
  · rw [update_of_ne hdc]
    exact h.core.waits.known d n hx hd

theorem Inv.post {b : B} {payload : List β} {more : Bool}
    (hstep : step s (.post b payload more) = some s') : Inv l who s' := by
  simp only [step] at hstep
  split at hstep
  next hcond =>
    obtain ⟨hreq, hpool, hne, hlen⟩ := hcond
    cases hstep
    have hcore : Core nobody l who { s with
        mem := update s.mem b payload
        pool := update s.pool b (s.pool b - 1)
        stream := s.stream ++ payload } :=
      ⟨h.core.armed.frame rfl, h.core.waits.frame rfl, h.core.quiet, h.core.refs.frame rfl, h.core.frees.frame rfl⟩
    exact ⟨h.bytes.post hpool hne hlen more, h.logged.frame rfl, hcore.complete hreq _⟩
  next => cases hstep

theorem Inv.onCqe (hstep : step s .onCqe = some s') : ∃ l', Inv l' who s' := by
  simp only [step] at hstep
  split at hstep
  next q cq hd hcq =>
    split at hstep <;> cases hstep
    have hfits := h.bytes.cq q (hcq ▸ mem_cons_self)
    have harmed := h.core.armed.of_cq hcq
    have hpos := h.core.refs.pos_of_live (live_of_armed harmed)
    rw [touch_of_pos hpos]
    refine ⟨s.waiters, h.bytes.onCqe hcq, ?_, h.core.onCqe hcq hfits hd⟩
    unfold State.onCqe
    rcases deliver_cases (s := { s with cq := cq }) hfits with ⟨-, err, eof, hdel⟩ | ⟨b, -, -, hdel⟩
    · rw [hdel]
      exact h.logged.frame rfl
    · rw [hdel]
      exact h.logged.frame rfl
  next => cases hstep

end

omit [DecidableEq B] in
theorem readNode_view (s : State C B β) (w : C) (last : Bool) :
    ((s.readNode w last).mem, (s.readNode w last).ready, (s.readNode w last).inflight, (s.readNode w last).cq,
      (s.readNode w last).pool, (s.readNode w last).frees, (s.readNode w last).log, (s.readNode w last).stream) =
      (s.mem, s.ready, s.inflight, s.cq, s.pool, s.frees, s.log, s.stream) ∧ (s.readNode w last).pc = s.pc := by
  unfold State.readNode
  split <;> exact ⟨rfl, rfl⟩

theorem Inv.walk (h : Inv l who s) (hstep : step s .walk = some s') : ∃ l', Inv l' who s' := by
  simp only [step] at hstep
  split at hstep <;> cases hstep
  next w last hd =>
    obtain ⟨hview, hpc⟩ := readNode_view s w last
    obtain ⟨l', hcore⟩ := h.core.readNode hd
    refine ⟨l', h.bytes.frame hview, h.logged.frame ?_, hcore⟩
    simp only [Prod.mk.injEq] at hview
    rw [hview.2.2.2.2.2.2.1, hpc]
  next last hd => exact ⟨[], h.bytes.frame rfl, h.logged.frame rfl, h.core.walkEnd hd⟩

theorem Inv.step (h : Inv l who s) {a : Action C B β} (hC : Orderly s a) (hstep : Multishot.step s a = some s') :
    ∃ l' who', Inv l' who' s' := by
  cases a with
  | call c n ok =>
    obtain rfl : ok = true := hC
    exact ⟨l, h.call hstep⟩
  | resume c ok =>
    obtain ⟨rfl, hunread⟩ := hC
    exact ⟨l, h.resume hunread hstep⟩
  | mark c =>
    simp only [Multishot.step] at hstep
    split at hstep <;> cases hstep
    exact ⟨l, who, h.bytes.frame rfl, h.logged.frame rfl, h.core.armed.frame rfl, h.core.waits.frame rfl,
      h.core.quiet, h.core.refs.frame rfl, h.core.frees.frame rfl⟩
  | stray c =>
    simp only [Multishot.step] at hstep
    split at hstep <;> cases hstep
    exact ⟨l, who, h.stray c⟩
  | take =>
    simp only [Multishot.step] at hstep
    split at hstep <;> cases hstep
    next hq =>
      exact ⟨l, who, h.bytes.frame rfl, h.logged.frame rfl, h.core.armed.take hq, h.core.waits.frame rfl,
        h.core.quiet, h.core.refs.frame rfl, h.core.frees.frame rfl⟩
  | post b payload more => exact ⟨l, who, h.post hstep⟩
  | postBare res more =>
    simp only [Multishot.step] at hstep
    split at hstep <;> cases hstep
    next hcond => exact ⟨l, who, h.bytes.postBare hcond.2 more, h.logged.frame rfl, h.core.complete hcond.1 _⟩
  | onCqe =>
    obtain ⟨l', h'⟩ := h.onCqe hstep
    exact ⟨l', who, h'⟩
  | walk =>
    obtain ⟨l', h'⟩ := h.walk hstep
    exact ⟨l', who, h'⟩
  | drainPut =>
    simp only [Multishot.step] at hstep
    split at hstep <;> cases hstep
    next hd =>
      obtain ⟨who', hcore⟩ := h.core.drainPut hd
      exact ⟨l, who', h.bytes.frame rfl, h.logged.frame rfl, hcore⟩
  | close =>
    simp only [Multishot.step] at hstep
    split at hstep <;> cases hstep
    next hidle => exact ⟨l, who, h.bytes.frame rfl, h.logged.frame rfl, h.core.close hidle⟩
  | cancel ok =>
    obtain rfl : ok = true := hC
    simp only [Multishot.step] at hstep
    split at hstep <;> cases hstep
    next hc => exact ⟨l, who, h.bytes.frame rfl, h.logged.frame rfl, h.core.cancelSent hc⟩
  | closePut =>
    obtain ⟨who', hcore⟩ := h.core.step_closePut hstep
    refine ⟨l, who', ?_, ?_, hcore⟩
    · simp only [Multishot.step] at hstep
      split at hstep
      · cases hstep
      · split at hstep <;> cases hstep <;> exact h.bytes.frame rfl
    · simp only [Multishot.step] at hstep
      split at hstep
      · cases hstep
      · split at hstep <;> cases hstep <;> exact h.logged.frame rfl
  | free a =>
    simp only [Multishot.step] at hstep
    split at hstep <;> cases hstep
    next ha =>
      exact ⟨l, none, h.bytes.free.frame rfl, h.logged.frame rfl, h.core.armed.frame rfl, h.core.waits.frame rfl,
        (fun hne => ⟨rfl, rfl, (h.core.quiet hne).2.2⟩), h.core.refs.frame rfl, h.core.frees.free ha⟩

theorem inv_of_reachable (h : (multishot C B β).ReachableWith Orderly s) : ∃ l who, Inv l who s :=
  h.invariant (P := fun s => ∃ l who, Inv l who s) (fun _ hs => ⟨[], none, Inv.init hs⟩)
    fun _ _ _ ⟨_, _, hI⟩ hC hstep => hI.step hC hstep

end Runs

/-! ## The claims of the handle -/

namespace State

/-- Data, an error, the end of the file, or a close whose multishot has ended. -/
def Pending (s : State C B β) : Prop :=
  s.ready ≠ [] ∨ s.inflight ≠ none ∨ s.err ≠ 0 ∨ s.eof = true ∨ s.closing = true ∧ s.armed = false

/-- A wake was sent to `c`, or the drain comes to its node. -/
def WakeComes (s : State C B β) (c : C) : Prop :=
  s.wake c = true ∨ ∃ l, s.drain.woken = l.head? ∧ Spells s.next l ∧ c ∈ l

def EndComes (s : State C B β) : Prop := 0 < s.queued + s.requests ∨ ∃ q ∈ s.cq, q.more = false

/-- No call is inside, the close has returned, and neither the kernel nor the drain has anything for the handle. -/
structure Unused (s : State C B β) : Prop where
  calls : ∀ c n, s.pc c ≠ .parked n
  closer : s.closer = .done
  requests : s.queued + s.requests = 0
  cq : s.cq = []
  drain : s.drain.duty = false

end State

section Results

variable {x : C → Prop} {l : List C} {who : Option (Actor C)} {s : State C B β}

theorem Ends.to_come {m : ℕ} {cq : List (Cqe B)} (h : Ends m cq) : 0 < m ∨ ∃ q ∈ cq, q.more = false := by
  induction cq with
  | nil =>
    have hm : m = 1 := h
    exact .inl (by omega)
  | cons q cq ih =>
    unfold Ends at h
    split at h
    next =>
      rcases ih h with hm | ⟨q', hq', hmore⟩
      · exact .inl hm
      · exact .inr ⟨q', mem_cons_of_mem q hq', hmore⟩
    next hmore => exact .inr ⟨q, mem_cons_self, Bool.eq_false_iff.mpr hmore⟩

section

variable (h : Core nobody l who s)
include h

theorem Core.wakeComes {c : C} {n : ℕ} (hpc : s.pc c = .parked n) : c ∈ s.waiters ∨ s.WakeComes c := by
  rcases h.waits.known c n id hpc with hmem | hmem | hwake
  · exact .inl hmem
  · exact .inr (.inr ⟨l, h.waits.woken, h.waits.detached, hmem⟩)
  · exact .inr (.inl hwake)

theorem Core.wakeComes_of_pending {c : C} {n : ℕ} (hpc : s.pc c = .parked n)
    (hp : s.Pending) : s.WakeComes c := by
  refine (h.wakeComes hpc).resolve_left fun hmem => ?_
  obtain ⟨hready, hslot, herr, heof, harmed⟩ := h.quiet (ne_nil_of_mem hmem)
  rcases hp with hp | hp | hp | hp | ⟨-, hp⟩
  · exact hp hready
  · exact hp hslot
  · exact hp herr
  · rw [heof] at hp
    cases hp
  · rw [harmed] at hp
    cases hp

theorem Core.endComes {c : C} {n : ℕ} (hpc : s.pc c = .parked n) (hclosing : s.closing = true) :
    s.WakeComes c ∨ (s.closer = .cancel ∨ s.cancelSent = true) ∧ s.EndComes := by
  rcases h.wakeComes hpc with hmem | hwake
  · have harmed := (h.quiet (ne_nil_of_mem hmem)).2.2.2.2
    exact .inr ⟨h.refs.cancel hclosing harmed, (h.armed.armed harmed).to_come⟩
  · exact .inl hwake

theorem Core.unused_iff : s.refcount = 0 ↔ s.Unused := by
  obtain ⟨k, hk, hcount⟩ := h.refs.count
  constructor
  · intro hzero
    have hnonneg := hk.nonneg
    have hrefs := s.closer.refs_nonneg
    have hlive := s.liveRef_nonneg
    have hgone : s.live = false := by
      apply Bool.eq_false_iff.mpr
      intro hl
      have := liveRef_of_live hl
      omega
    unfold State.live at hgone
    obtain ⟨hgone', hduty⟩ := Bool.or_eq_false_iff.mp hgone
    obtain ⟨hkeeps, hunarmed⟩ := Bool.or_eq_false_iff.mp hgone'
    obtain ⟨hrequests, hcq⟩ := h.armed.unarmed hunarmed
    refine ⟨fun c n hc => hk.none (by omega) c (.inr ⟨n, hc⟩), ?_, hrequests, hcq, hduty⟩
    have hz : s.closer.refs = 0 := by omega
    cases hc : s.closer with
    | done => rfl
    | idle | dropLive =>
      rw [hc] at hkeeps
      cases hkeeps
    | cancel | drop | dropBoth =>
      rw [hc] at hz
      cases hz
  · intro hu
    have hunarmed : s.armed = false := by
      apply Bool.eq_false_iff.mpr
      intro harmed
      have hends := h.armed.armed harmed
      rw [hu.cq, hu.requests] at hends
      cases hends
    have hgone : s.liveRef = 0 := by
      unfold State.liveRef State.live
      rw [hu.closer, hunarmed, hu.drain]
      rfl
    -- What is left are the calls inside, and there are none.
    have hempty : k = 0 := by
      obtain ⟨S, hS, rfl⟩ := hk
      have : S = ∅ := Finset.eq_empty_of_forall_notMem fun c hc => by
        rcases (hS c).mp hc with hx | ⟨n, hn⟩
        · exact hx
        · exact hu.calls c n hn
      rw [this]
      rfl
    rw [hu.closer, hgone, hempty] at hcount
    exact hcount

end

end Results

variable [DecidableEq C] [DecidableEq B] {s : State C B β}

/-- In every orderly run the bytes returned are the beginning of the payloads, buffers and handle are given back
once, and no parked call is left. -/
theorem delivers_once (h : (multishot C B β).ReachableWith Orderly s) :
    (taken s.log <+: s.stream ∧ (s.log.map Prod.fst).Nodup ∧
      ∀ c out, (c, out) ∈ s.log ↔ s.pc c = .returned (.bytes out)) ∧
    (∀ b, s.pool b + s.held.count b = 1) ∧
    (s.touched = false ∧ s.frees ≤ 1 ∧ (0 < s.frees → s.Unused) ∧
      (s.Unused → (∀ a, s.freeing a = false) → s.frees = 1)) ∧
    (∀ c n, s.pc c = .parked n → s.Pending → s.WakeComes c) ∧
    (∀ c n, s.pc c = .parked n → s.closing = true →
      s.WakeComes c ∨ (s.closer = .cancel ∨ s.cancelSent = true) ∧ s.EndComes) := by
  obtain ⟨l, who, hI⟩ := inv_of_reachable h
  have hfrees : s.refcount ≠ 0 → s.frees = 0 := fun hne => (hI.core.frees.used hne).1
  refine ⟨⟨hI.bytes.taken, hI.logged.nodup, hI.logged.mem⟩, hI.bytes.pool, ⟨hI.core.frees.touched, ?_, fun hpos => ?_,
    fun hu hnone => ?_⟩, fun c n => hI.core.wakeComes_of_pending, fun c n => hI.core.endComes⟩
  · by_cases hzero : s.refcount = 0
    · have := hI.core.frees.unused hzero
      omega
    · have := hfrees hzero
      omega
  · refine hI.core.unused_iff.mp ?_
    by_contra hne
    have := hfrees hne
    omega
  · have hunused := hI.core.frees.unused (hI.core.unused_iff.mpr hu)
    cases who with
    | none => exact hunused
    | some a =>
      have := (hI.core.frees.freeing a).mpr rfl
      rw [hnone] at this
      cases this

/-! ## Runs with two calls -/

def opened : State Bool Unit Bool :=
  ⟨false, 0, false, true, [], none, 1, [], fun _ => none, fun _ => .idle, fun _ => false, fun _ => false, .idle, .idle,
    fun _ => false, 1, 0, [], fun _ => [], fun _ => 1, false, [], [], fun _ => false, 0, false⟩

theorem init_opened : Init opened :=
  ⟨rfl, rfl, rfl, rfl, rfl, rfl, rfl, rfl, fun _ => rfl, rfl, rfl, fun _ => rfl, rfl, rfl, rfl, fun _ => rfl, rfl, rfl,
    rfl, fun _ => rfl, rfl, rfl⟩

instance (s : State C B β) : ∀ a, Decidable (Orderly s a)
  | .call _ _ ok => inferInstanceAs (Decidable (ok = true))
  | .resume c ok => inferInstanceAs (Decidable (ok = true ∧ s.unread c = false))
  | .cancel ok => inferInstanceAs (Decidable (ok = true))
  | .mark _ | .stray _ | .take | .post .. | .postBare .. | .onCqe | .walk | .drainPut | .close | .closePut | .free _ =>
    .isTrue trivial

/-- After a failed submission the drain enters a freed handle; and when a signal wakes a call, the drain reads a
node that is gone. -/
theorem failed_submission_and_signal :
    (¬∀ s : State Bool Unit Bool, (multishot Bool Unit Bool).Reachable s → s.touched = false) ∧
    ¬∀ s : State Bool Unit Bool, (multishot Bool Unit Bool).Reachable s →
      ∀ c n, s.pc c = .parked n → s.Pending → s.WakeComes c := by
  constructor
  · intro hall
    obtain ⟨s, hr, hp⟩ := (multishot Bool Unit Bool).reaches (fun s => s.touched)
      [.take, .postBare noBuffers false, .onCqe, .walk, .call false 1 false, .close, .closePut, .closePut,
        .free .closer, .take, .postBare 0 false, .onCqe]
      (s := opened) init_opened (by decide +kernel)
    rw [hall s hr] at hp
    cases hp
  · intro hall
    obtain ⟨s, hr, hpc, hready, hwake, hd⟩ := (multishot Bool Unit Bool).reaches
      (fun s => s.pc false = .parked 1 ∧ s.ready ≠ [] ∧ s.wake false = false ∧ s.drain = .wild)
      [.take, .call false 1 true, .call true 1 true, .post () [true, false] true, .onCqe, .mark true, .stray true,
        .resume true true, .walk]
      (s := opened) init_opened (by decide +kernel)
    rcases hall s hr false 1 hpc (.inl hready) with hw | ⟨l, hl, -, hmem⟩
    · rw [hwake] at hw
      cases hw
    · rw [hd] at hl
      rw [List.head?_eq_none_iff.mp hl.symm] at hmem
      cases hmem

/-- A call reads two bytes; the other one is woken too, parks again, and ends with the close. -/
theorem delivers_once_twoCalls : ∃ s : State Bool Unit Bool, (multishot Bool Unit Bool).ReachableWith Orderly s ∧
      s.pc true = .returned (.bytes [true, false]) ∧ s.pc false = .returned .zero ∧ s.frees = 1 ∧
      taken s.log <+: s.stream := by
  obtain ⟨s, hr, htrue, hfalse, hfrees⟩ := (multishot Bool Unit Bool).reachesWith Orderly
    (fun s => s.pc true = .returned (.bytes [true, false]) ∧ s.pc false = .returned .zero ∧ s.frees = 1)
    [.take, .call false 1 true, .call true 3 true, .post () [true, false] true, .onCqe, .walk, .walk, .walk,
      .resume true true, .resume false true, .close, .cancel true, .closePut, .postBare canceled false, .onCqe, .walk,
      .walk, .drainPut, .resume false true, .free (.reader false)]
    (s := opened) init_opened (by decide +kernel)
  exact ⟨s, hr, htrue, hfalse, hfrees, (delivers_once hr).1.1⟩

end Runloom.Multishot
