import Runloom.Chan.Invariant

/-!
# Frames of the channel invariant

How each part of the invariant goes through a change of the fields it reads: waiters leave or join
a queue, a value enters or leaves the ring, events are recorded, a call moves on.
-/

namespace Runloom.Chan

open Transition List

variable {H C V : Type*} {calls : C → Call H V} {cap : H → ℕ}
  {chan chan' : H → Channel C V} {fired fired' : C → Option ℕ} {slot slot' : Waiter C → Slot C V}
  {call : C → CallPc C V} {log : List (Event H C V)}

/-! ## Claims -/

theorem claimable_case {c : C} {i : ℕ} : claimable fired (.case c i) = true ↔ fired c = none := by
  simp [claimable]

variable {w : Waiter C}

theorem claimable_of_claim [DecidableEq C] {x : Waiter C} (h : claimable (claim fired w) x = true) :
    claimable fired x = true := by
  cases x with
  | plain c => rfl
  | case c i =>
    cases w with
    | plain d => exact h
    | case d j =>
      rw [claimable_case] at h ⊢
      by_cases hcd : c = d
      · subst hcd
        rw [claim, update_self] at h
        cases h
      · rwa [claim, update_of_ne hcd] at h

theorem fired_of_claim [DecidableEq C] {c : C} {i : ℕ} (h : claim fired w c = some i) :
    fired c = some i ∨ w = .case c i := by
  cases w with
  | plain d => exact .inl h
  | case d j =>
    by_cases hcd : c = d
    · subst hcd
      rw [claim, update_self] at h
      cases h
      exact .inr rfl
    · rw [claim, update_of_ne hcd] at h
      exact .inl h

theorem claim_of_ne [DecidableEq C] {c : C} (h : w.call ≠ c) : claim fired w c = fired c := by
  cases w with
  | plain d => rfl
  | case d j => exact update_of_ne (Ne.symm h) _ _

theorem claim_of_fired [DecidableEq C] {c : C} {k : ℕ} (hw : claimable fired w = true)
    (h : fired c = some k) : claim fired w c = some k := by
  cases w with
  | plain d => exact h
  | case d j =>
    have hd : fired d = none := claimable_case.mp hw
    have hcd : c ≠ d := by
      rintro rfl
      rw [h] at hd
      cases hd
    rw [claim, update_of_ne hcd, h]

variable {rest : List (Waiter C)}

theorem popQueue_some {ws : List (Waiter C)} (h : popQueue fired ws = (some w, rest)) :
    claimable fired w = true ∧ ∃ pre, ws = pre ++ w :: rest ∧ ∀ x ∈ pre, claimable fired x = false := by
  induction ws with
  | nil => cases h
  | cons x ws ih =>
    unfold popQueue at h
    split at h
    next hx =>
      cases h
      exact ⟨hx, [], rfl, nofun⟩
    next hx =>
      obtain ⟨hw, pre, rfl, hpre⟩ := ih h
      refine ⟨hw, x :: pre, rfl, ?_⟩
      intro y hy
      rcases mem_cons.mp hy with rfl | hy
      · exact Bool.eq_false_iff.mpr hx
      · exact hpre y hy

theorem popQueue_none {ws : List (Waiter C)} (h : popQueue fired ws = (none, rest)) :
    rest = [] ∧ ∀ x ∈ ws, claimable fired x = false := by
  induction ws with
  | nil =>
    cases h
    exact ⟨rfl, nofun⟩
  | cons x ws ih =>
    unfold popQueue at h
    split at h
    next => cases h
    next hx =>
      obtain ⟨hrest, hws⟩ := ih h
      refine ⟨hrest, ?_⟩
      intro y hy
      rcases mem_cons.mp hy with rfl | hy
      · exact Bool.eq_false_iff.mpr hx
      · exact hws y hy

theorem mem_of_hasForeign [DecidableEq C] {c : C} {ws : List (Waiter C)} (h : hasForeign c ws = false)
    (hw : w ∈ ws) : ∃ i, w = .case c i := by
  have hall := any_eq_false.mp h w hw
  cases w with
  | plain d => exact absurd rfl hall
  | case d i =>
    have hd : d = c := by simpa using hall
    exact ⟨i, by rw [hd]⟩

/-! ## Queues -/

section

variable (h : QueueOk calls cap chan fired slot call)
include h

theorem QueueOk.eq_of_mem {ch ch' : H} {side side' : Side} (hw : w ∈ (chan ch).waiters side)
    (hw' : w ∈ (chan ch').waiters side') : ch' = ch ∧ side' = side := by
  obtain ⟨k, hk, rfl, rfl⟩ := h.op ch side w hw
  obtain ⟨k', hk', rfl, rfl⟩ := h.op ch' side' w hw'
  rw [hk] at hk'
  cases hk'
  exact ⟨rfl, rfl⟩

theorem QueueOk.shrink (hsub : ∀ ch side, ((chan' ch).waiters side).Sublist ((chan ch).waiters side))
    (hfired : ∀ ch side w, w ∈ (chan' ch).waiters side → claimable fired' w = true → claimable fired w = true)
    (hslot : ∀ ch side w, w ∈ (chan' ch).waiters side → claimable fired' w = true → slot' w = slot w)
    (hclaimed : ∀ ch side c i, fired' c = some i → fired c = some i ∨ .case c i ∉ (chan' ch).waiters side)
    (hfull : ∀ ch w, w ∈ (chan' ch).waiters .send → claimable fired' w = true → (chan' ch).len = cap ch)
    (hempty : ∀ ch w, w ∈ (chan' ch).waiters .recv → claimable fired' w = true → (chan' ch).len = 0)
    (hclosed : ∀ ch side, (chan' ch).closed = true → (chan' ch).waiters side = []) :
    QueueOk calls cap chan' fired' slot' call where
  op ch side w hw := h.op ch side w ((hsub ch side).subset hw)
  linked ch side w hw := h.linked ch side w ((hsub ch side).subset hw)
  fresh ch side w k hw hc hk := by
    rw [hslot ch side w hw hc]
    exact h.fresh ch side w k ((hsub ch side).subset hw) (hfired ch side w hw hc) hk
  nodup ch side := (h.nodup ch side).sublist (hsub ch side)
  claimed ch side c i hc hm := by
    rcases hclaimed ch side c i hc with hc | hn
    · exact h.claimed ch side c i hc ((hsub ch side).subset hm)
    · exact hn hm
  full := hfull
  empty := hempty
  pair ch w w' hw hw' hc hc' :=
    h.pair ch w w' ((hsub ch .send).subset hw) ((hsub ch .recv).subset hw')
      (hfired ch .send w hw hc) (hfired ch .recv w' hw' hc')
  closed := hclosed

theorem QueueOk.move [DecidableEq C] {c : C} {pc : CallPc C V}
    (hpc : ∀ ch side w, w ∈ (chan ch).waiters side → w.call = c → LinkedAt pc w) :
    QueueOk calls cap chan fired slot (update call c pc) where
  op := h.op
  linked ch side w hw := by
    by_cases hwc : w.call = c
    · rw [hwc, update_self]
      exact hpc ch side w hw hwc
    · rw [update_of_ne hwc]
      exact h.linked ch side w hw
  fresh := h.fresh
  nodup := h.nodup
  claimed := h.claimed
  full := h.full
  empty := h.empty
  pair := h.pair
  closed := h.closed

end

variable [DecidableEq H] {ch : H} {side : Side}

variable {k : Channel C V}

theorem sublist_of_update     (hk : k.waiters = update (chan ch).waiters side rest)
    (hrest : rest.Sublist ((chan ch).waiters side)) (ch' : H) (side' : Side) :
    ((update chan ch k ch').waiters side').Sublist ((chan ch').waiters side') := by
  by_cases hch : ch' = ch
  · subst hch
    rw [update_self, hk]
    by_cases hs : side' = side
    · subst hs
      rw [update_self]
      exact hrest
    · rw [update_of_ne hs]
  · rw [update_of_ne hch]

theorem QueueOk.pop_some [DecidableEq C] (h : QueueOk calls cap chan fired slot call)
    {pre : List (Waiter C)} (hq : (chan ch).waiters side = pre ++ w :: rest)
    (hk : k.waiters = update (chan ch).waiters side rest)
    (hcl : k.closed = (chan ch).closed) (hlen : k.len = (chan ch).len)
    (hslot : ∀ x, x ≠ w → slot' x = slot x) :
    QueueOk calls cap (update chan ch k) (claim fired w) slot' call := by
  have hmem : w ∈ (chan ch).waiters side := by
    rw [hq]
    exact mem_append_right pre mem_cons_self
  have hrest : rest.Sublist ((chan ch).waiters side) := by
    rw [hq]
    exact (sublist_cons_self w rest).trans (sublist_append_right pre (w :: rest))
  have hsub := sublist_of_update hk hrest
  have hnd := h.nodup ch side
  rw [hq] at hnd
  -- The waiter claimed is in no queue any more.
  have hnot : ∀ ch' side', w ∉ (update chan ch k ch').waiters side' := by
    intro ch' side' hw
    obtain ⟨rfl, rfl⟩ := h.eq_of_mem hmem ((hsub ch' side').subset hw)
    rw [update_self, hk, update_self] at hw
    exact (nodup_cons.mp (nodup_append.mp hnd).2.1).1 hw
  have hlen' : ∀ ch', (update chan ch k ch').len = (chan ch').len := by
    intro ch'
    by_cases hch : ch' = ch
    · subst hch
      rw [update_self, hlen]
    · rw [update_of_ne hch]
  have hcl' : ∀ ch', (update chan ch k ch').closed = (chan ch').closed := by
    intro ch'
    by_cases hch : ch' = ch
    · subst hch
      rw [update_self, hcl]
    · rw [update_of_ne hch]
  apply h.shrink hsub
  · exact fun _ _ x _ hx => claimable_of_claim hx
  · intro ch' side' x hx _
    exact hslot x fun e => hnot ch' side' (e ▸ hx)
  · intro ch' side' c i hc
    rcases fired_of_claim hc with hc | rfl
    · exact .inl hc
    · exact .inr (hnot ch' side')
  · intro ch' x hx hc
    rw [hlen']
    exact h.full ch' x ((hsub ch' .send).subset hx) (claimable_of_claim hc)
  · intro ch' x hx hc
    rw [hlen']
    exact h.empty ch' x ((hsub ch' .recv).subset hx) (claimable_of_claim hc)
  · intro ch' side' hc
    rw [hcl'] at hc
    have hnil := h.closed ch' side' hc
    exact sublist_nil.mp (hnil ▸ hsub ch' side')

theorem QueueOk.pop_none (h : QueueOk calls cap chan fired slot call)
    (hk : k.waiters = update (chan ch).waiters side [])
    (hcl : k.closed = (chan ch).closed)
    (hfull : side = .recv → ∀ w ∈ (chan ch).waiters .send, claimable fired w = true → k.len = cap ch)
    (hempty : side = .send → ∀ w ∈ (chan ch).waiters .recv, claimable fired w = true → k.len = 0) :
    QueueOk calls cap (update chan ch k) fired slot call := by
  have hsub := sublist_of_update hk (nil_sublist _)
  apply h.shrink hsub
  · exact fun _ _ _ _ hx => hx
  · exact fun _ _ _ _ _ => rfl
  · exact fun _ _ _ _ hc => .inl hc
  · intro ch' x hx hc
    have hold := (hsub ch' .send).subset hx
    by_cases hch : ch' = ch
    · subst hch
      rw [update_self] at hx ⊢
      rw [hk] at hx
      cases side with
      | send =>
        rw [update_self] at hx
        cases hx
      | recv => exact hfull rfl x hold hc
    · rw [update_of_ne hch]
      exact h.full ch' x hold hc
  · intro ch' x hx hc
    have hold := (hsub ch' .recv).subset hx
    by_cases hch : ch' = ch
    · subst hch
      rw [update_self] at hx ⊢
      rw [hk] at hx
      cases side with
      | recv =>
        rw [update_self] at hx
        cases hx
      | send => exact hempty rfl x hold hc
    · rw [update_of_ne hch]
      exact h.empty ch' x hold hc
  · intro ch' side' hc
    have hc' : (chan ch').closed = true := by
      by_cases hch : ch' = ch
      · subst hch
        rwa [update_self, hcl] at hc
      · rwa [update_of_ne hch] at hc
    exact sublist_nil.mp (h.closed ch' side' hc' ▸ hsub ch' side')

variable {b : Case H V}

theorem QueueOk.push (h : QueueOk calls cap chan fired slot call)     (hop : opOf calls w = some b) (hch : b.ch = ch) (hside : b.op.side = side)
    (hk : k.waiters = update (chan ch).waiters side ((chan ch).waiters side ++ [w]))
    (hcl : k.closed = false) (hlen : k.len = (chan ch).len) (hlink : LinkedAt (call w.call) w)
    (hnew : w ∉ (chan ch).waiters side) (hslot : claimable fired w = true → slot w = State.freshSlot w b.op)
    (hfired : ∀ i, w = .case w.call i → fired w.call ≠ some i)
    (hfull : side = .send → (chan ch).len = cap ch) (hempty : side = .recv → (chan ch).len = 0)
    (hpair : ∀ x ∈ (chan ch).waiters (if side = .send then .recv else .send),
      claimable fired x = true → ∃ c i j, w = .case c i ∧ x = .case c j) :
    QueueOk calls cap (update chan ch k) fired slot call := by
  -- A waiter of the new queues is `w` or was there before.
  have hmem : ∀ ch' side' x, x ∈ (update chan ch k ch').waiters side' →
      x ∈ (chan ch').waiters side' ∨ x = w ∧ ch' = ch ∧ side' = side := by
    intro ch' side' x hx
    by_cases hc : ch' = ch
    · subst hc
      rw [update_self, hk] at hx
      by_cases hs : side' = side
      · subst hs
        rw [update_self, mem_append] at hx
        rcases hx with hx | hx
        · exact .inl hx
        · exact .inr ⟨mem_singleton.mp hx, rfl, rfl⟩
      · rw [update_of_ne hs] at hx
        exact .inl hx
    · rw [update_of_ne hc] at hx
      exact .inl hx
  have hlen' : ∀ ch', (update chan ch k ch').len = (chan ch').len := by
    intro ch'
    by_cases hc : ch' = ch
    · subst hc
      rw [update_self, hlen]
    · rw [update_of_ne hc]
  refine ⟨?_, ?_, ?_, ?_, ?_, ?_, ?_, ?_, ?_⟩
  · intro ch' side' x hx
    rcases hmem ch' side' x hx with hx | ⟨rfl, rfl, rfl⟩
    · exact h.op ch' side' x hx
    · exact ⟨b, hop, hch, hside⟩
  · intro ch' side' x hx
    rcases hmem ch' side' x hx with hx | ⟨rfl, rfl, rfl⟩
    · exact h.linked ch' side' x hx
    · exact hlink
  · intro ch' side' x b' hx hc hb
    rcases hmem ch' side' x hx with hx | ⟨rfl, rfl, rfl⟩
    · exact h.fresh ch' side' x b' hx hc hb
    · rw [hop] at hb
      cases hb
      exact hslot hc
  · intro ch' side'
    by_cases hc : ch' = ch
    · subst hc
      rw [update_self, hk]
      by_cases hs : side' = side
      · subst hs
        rw [update_self]
        apply List.Nodup.append (h.nodup ch' side') (nodup_singleton w)
        intro x hx hxw
        cases mem_singleton.mp hxw
        exact hnew hx
      · rw [update_of_ne hs]
        exact h.nodup ch' side'
    · rw [update_of_ne hc]
      exact h.nodup ch' side'
  · intro ch' side' c i hc hx
    rcases hmem ch' side' _ hx with hx | ⟨hx, -, -⟩
    · exact h.claimed ch' side' c i hc hx
    · subst hx
      exact hfired i rfl hc
  · intro ch' x hx hc
    rw [hlen']
    rcases hmem ch' .send x hx with hx | ⟨rfl, rfl, hs⟩
    · exact h.full ch' x hx hc
    · exact hfull hs.symm
  · intro ch' x hx hc
    rw [hlen']
    rcases hmem ch' .recv x hx with hx | ⟨rfl, rfl, hs⟩
    · exact h.empty ch' x hx hc
    · exact hempty hs.symm
  · intro ch' x y hx hy hcx hcy
    rcases hmem ch' .send x hx with hx' | ⟨rfl, rfl, hs⟩
    · rcases hmem ch' .recv y hy with hy' | ⟨rfl, rfl, hs⟩
      · exact h.pair ch' x y hx' hy' hcx hcy
      · subst hs
        obtain ⟨c, i, j, hw, hxc⟩ := hpair x hx' hcx
        exact ⟨c, j, i, hxc, hw⟩
    · subst hs
      rcases hmem ch' .recv y hy with hy' | ⟨-, -, hs⟩
      · exact hpair y hy' hcy
      · cases hs
  · intro ch' side' hc
    by_cases hcc : ch' = ch
    · subst hcc
      rw [update_self, hcl] at hc
      cases hc
    · rw [update_of_ne hcc] at hc ⊢
      exact h.closed ch' side' hc

/-! ## The record -/

section Log

variable (log es : List (Event H C V)) (ch : H)

theorem accepted_append : accepted (log ++ es) ch = accepted log ch ++ accepted es ch :=
  filterMap_append

theorem handed_append : handed (log ++ es) ch = handed log ch ++ handed es ch :=
  filterMap_append

theorem parkedSenders_append : parkedSenders (log ++ es) ch = parkedSenders log ch ++ parkedSenders es ch :=
  filterMap_append

theorem takenSenders_append : takenSenders (log ++ es) ch = takenSenders log ch ++ takenSenders es ch :=
  filterMap_append

omit [DecidableEq H] in
theorem moved_append [DecidableEq C] (c : C) : moved (log ++ es) c = moved log c ++ moved es c :=
  filterMap_append

def Event.on : Event H C V → H
  | .accepted ch _ _ _ => ch
  | .handed ch _ _ => ch
  | .parks ch _ => ch

variable {log es ch}

theorem lists_of_other (h : ∀ e ∈ es, e.on ≠ ch) :
    accepted es ch = [] ∧ handed es ch = [] ∧ parkedSenders es ch = [] ∧ takenSenders es ch = [] := by
  refine ⟨?_, ?_, ?_, ?_⟩ <;> refine filterMap_eq_nil_iff.mpr fun e he => ?_
  · cases e with
    | accepted ch' tx x p => exact if_neg (h _ he)
    | _ => rfl
  · cases e with
    | handed ch' rx x => exact if_neg (h _ he)
    | _ => rfl
  · cases e with
    | parks ch' c => exact if_neg (h _ he)
    | _ => rfl
  · cases e with
    | accepted ch' tx x p =>
      cases tx with
      | plain c =>
        cases p with
        | true => exact if_neg (h _ he)
        | false => rfl
      | case c i => rfl
    | _ => rfl

end Log

/-! ## Rings -/

section Flow

variable {k : Channel C V} {es : List (Event H C V)}

section

variable (h : Flow cap ch k log)
include h

theorem Flow.of_other (hes : ∀ e ∈ es, e.on ≠ ch) : Flow cap ch k (log ++ es) where
  len := h.len
  head := h.head
  tail := h.tail
  conserve := by
    obtain ⟨ha, hh, -, -⟩ := lists_of_other hes
    rw [accepted_append, handed_append, ha, hh, append_nil, append_nil]
    exact h.conserve

theorem Flow.pass (hlen : k.len = 0) (tx rx : Waiter C) (x : Option (Item C V)) (parked : Bool) :
    Flow cap ch k (log ++ [Event.accepted ch tx x parked, .handed ch rx x]) where
  len := h.len
  head := h.head
  tail := h.tail
  conserve := by
    have hc := h.conserve
    rw [hlen, Ring.contents_zero, append_nil] at hc ⊢
    rw [accepted_append, handed_append, hc]
    simp only [accepted, handed, Event.acceptedOn, Event.handedOn, filterMap_cons, filterMap_nil, if_true]

theorem Flow.push (hlen : k.len < cap ch) (tx : Waiter C) (x : Option (Item C V)) (parked : Bool) :
    Flow cap ch { k with buf := update k.buf k.tail x, tail := (k.tail + 1) % cap ch,
                         len := k.len + 1 } (log ++ [Event.accepted ch tx x parked]) where
  len := hlen
  head := h.head
  tail hcap := by
    rw [h.tail hcap, Ring.mod_add_one, Nat.add_assoc]
  conserve := by
    have hcap : 0 < cap ch := by omega
    rw [accepted_append, handed_append, ← h.conserve, h.tail hcap, Ring.contents_push hlen]
    simp only [accepted, handed, Event.acceptedOn, Event.handedOn, filterMap_cons,
      filterMap_nil, if_true, append_nil, append_assoc]

theorem Flow.pop (hlen : 0 < k.len) (rx : Waiter C) :
    Flow cap ch { k with buf := update k.buf k.head none, head := (k.head + 1) % cap ch,
                         len := k.len - 1 } (log ++ [Event.handed ch rx (k.buf k.head)]) := by
  have hcap : 0 < cap ch := by
    have := h.len
    omega
  obtain ⟨n, hn⟩ : ∃ n, k.len = n + 1 := ⟨k.len - 1, by omega⟩
  have hpop : Ring.contents k.buf (cap ch) k.head k.len = k.buf k.head ::
      Ring.contents (update k.buf k.head none) (cap ch) ((k.head + 1) % cap ch) (k.len - 1) := by
    have hle := h.len
    rw [hn] at hle ⊢
    exact Ring.contents_pop hle (h.head hcap)
  refine ⟨?_, ?_, ?_, ?_⟩
  · have := h.len
    simp only
    omega
  · exact fun _ => Nat.mod_lt _ hcap
  · intro _
    simp only [h.tail hcap, hn, Nat.add_sub_cancel]
    rw [Ring.mod_add_one_add]
  · rw [accepted_append, handed_append, ← h.conserve, hpop]
    simp only [accepted, handed, Event.acceptedOn, Event.handedOn, filterMap_cons,
      filterMap_nil, if_true, append_nil, append_assoc, cons_append,
      nil_append]

end

end Flow

/-! ## Order of the plain senders -/

section

omit [DecidableEq H]

theorem plains_append (l l' : List (Waiter C)) : plains (l ++ l') = plains l ++ plains l' :=
  filterMap_append

theorem plains_of_not_claimable {l : List (Waiter C)} (h : ∀ w ∈ l, claimable fired w = false) :
    plains l = [] := by
  apply filterMap_eq_nil_iff.mpr
  intro w hw
  cases w with
  | plain c => cases h _ hw
  | case c i => rfl

end

section Fifo

variable {k k' : Channel C V} {es : List (Event H C V)}

theorem Fifo.frame (h : Fifo ch k log) (hp : parkedSenders es ch = []) (ht : takenSenders es ch = [])
    (hcl : k'.closed = false → k.closed = false)
    (hq : k'.closed = false → plains (k'.waiters .send) = plains (k.waiters .send)) :
    Fifo ch k' (log ++ es) where
  order := by
    rw [parkedSenders_append, takenSenders_append, hp, ht, append_nil, append_nil]
    exact h.order
  rest hc := by
    rw [parkedSenders_append, takenSenders_append, hp, ht, append_nil, append_nil, hq hc]
    exact h.rest (hcl hc)

theorem Fifo.take (h : Fifo ch k log) {pre rest : List (Waiter C)} {tx : Waiter C}
    (hq : k.waiters .send = pre ++ tx :: rest) (hpre : ∀ w ∈ pre, claimable fired w = false)
    (hcl : k.closed = false) (hq' : k'.waiters .send = rest)
    (hp : parkedSenders es ch = []) (ht : takenSenders es ch = plains [tx]) :
    Fifo ch k' (log ++ es) := by
  have hrest : parkedSenders (log ++ es) ch = takenSenders (log ++ es) ch ++ plains (k'.waiters .send) := by
    rw [parkedSenders_append, takenSenders_append, hp, ht, append_nil, h.rest hcl, hq, hq',
      plains_append, plains_of_not_claimable hpre, nil_append,
      show tx :: rest = [tx] ++ rest from rfl, plains_append, append_assoc]
  exact ⟨hrest ▸ prefix_append _ _, fun _ => hrest⟩

theorem Fifo.park (h : Fifo ch k log) {c : C} (hcl : k.closed = false)
    (hq : k'.waiters .send = k.waiters .send ++ [Waiter.plain c]) :
    Fifo ch k' (log ++ [Event.parks ch c]) := by
  have hp : parkedSenders ([.parks ch c] : List (Event H C V)) ch = [c] := by
    simp only [parkedSenders, Event.parksOn, filterMap_cons, filterMap_nil, if_true]
  have ht : takenSenders ([.parks ch c] : List (Event H C V)) ch = [] := rfl
  have hrest : parkedSenders (log ++ [Event.parks ch c]) ch =
      takenSenders (log ++ [Event.parks ch c]) ch ++ plains (k'.waiters .send) := by
    rw [parkedSenders_append, takenSenders_append, hp, ht, append_nil, h.rest hcl, hq,
      plains_append, append_assoc]
    rfl
  exact ⟨hrest ▸ prefix_append _ _, fun _ => hrest⟩

end Fifo

/-! ## Calls -/

omit [DecidableEq H]

section Own

variable {op : Op V} {got : Got C V} {m : List (ℕ × Got C V)} {i : ℕ} {k : Slot C V}

theorem GotOk.mono {cl cl' : Bool} (h : GotOk op got m i cl) (hcl : cl = true → cl' = true) :
    GotOk op got m i cl' := by
  cases op with
  | send v => exact h
  | recv =>
    rcases h with h | ⟨hg, hm, hc⟩
    · exact .inl h
    · exact .inr ⟨hg, hm, hcl hc⟩

theorem Filled.mono {cl cl' : Bool} (h : Filled op k m i cl) (hcl : cl = true → cl' = true) :
    Filled op k m i cl' := by
  cases op with
  | send v =>
    rcases h with h | ⟨hr, hm, hc⟩
    · exact .inl h
    · exact .inr ⟨hr, hm, hcl hc⟩
  | recv =>
    rcases h with h | ⟨hv, hr, hm, hc⟩
    · exact .inl h
    · exact .inr ⟨hv, hr, hm, hcl hc⟩

variable {closed closed' : H → Bool}

theorem PlainOk.mono {b : Case H V} {pc : CallPc C V} (h : PlainOk b pc k m closed)
    (hcl : ∀ ch, closed ch = true → closed' ch = true) : PlainOk b pc k m closed' := by
  cases pc with
  | idle => exact h
  | parked =>
    rcases h with h | ⟨hq, hf⟩
    · exact .inl h
    · exact .inr ⟨hq, hf.mono (hcl b.ch)⟩
  | returned out =>
    cases out with
    | plain got => exact GotOk.mono h (hcl b.ch)
    | sendClosed => exact ⟨h.1, hcl b.ch h.2⟩
    | _ => exact h
  | _ => exact h

theorem SelectWait.mono {cases : List (Case H V)} {f : Option ℕ} {sl : ℕ → Slot C V}
    (h : SelectWait cases f sl m closed) (hcl : ∀ ch, closed ch = true → closed' ch = true) :
    SelectWait cases f sl m closed' := by
  cases f with
  | none => exact h
  | some k =>
    obtain ⟨b, hb, hf⟩ := h
    exact ⟨b, hb, hf.mono (hcl b.ch)⟩

theorem SelectOk.mono {cases : List (Case H V)} {pc : CallPc C V} {f : Option ℕ}
    {sl : ℕ → Slot C V} {c : C} (h : SelectOk c cases pc f sl m closed)
    (hcl : ∀ ch, closed ch = true → closed' ch = true) : SelectOk c cases pc f sl m closed' := by
  cases pc with
  | install i => exact ⟨SelectWait.mono h.1 hcl, h.2⟩
  | abort i | yielded | load | reload => exact SelectWait.mono h hcl
  | evict i why =>
    cases why with
    | restart => exact h
    | reload => exact SelectWait.mono h hcl
    | finish k => exact ⟨h.1, SelectWait.mono h.2 hcl⟩
  | finish k => exact ⟨h.1, SelectWait.mono h.2 hcl⟩
  | returned out =>
    cases out with
    | selected k got =>
      obtain ⟨b, hb, hg⟩ := h
      exact ⟨b, hb, hg.mono (hcl b.ch)⟩
    | sendClosed =>
      obtain ⟨hm, b, hb, hs, hc⟩ := h
      exact ⟨hm, b, hb, hs, hcl b.ch hc⟩
    | _ => exact h
  | _ => exact h

end Own

variable {call' : C → CallPc C V} {log' : List (Event H C V)} {c : C}

theorem select_of_opOf {i : ℕ} (hop : opOf calls (.case c i) = some b) :
    ∃ cases d, calls c = .select cases d ∧ cases[i]? = some b := by
  simp only [opOf] at hop
  cases hc : calls c with
  | select cases d =>
    rw [hc] at hop
    exact ⟨cases, d, rfl, hop⟩
  | send ch v bl | recv ch bl | close ch =>
    rw [hc] at hop
    cases hop

theorem SelectOk.wait_of_linked {cases : List (Case H V)} {pc : CallPc C V} {f : Option ℕ}
    {sl : ℕ → Slot C V} {m : List (ℕ × Got C V)} {closed : H → Bool} {i : ℕ}
    (h : SelectOk c cases pc f sl m closed) (hf : f = none) (hl : LinkedAt pc (.case c i)) :
    m = [] ∧ ∀ (sl' : ℕ → Slot C V) (m' : List (ℕ × Got C V)) (closed' : H → Bool),
      (∀ j, j ≠ i → sl' j = sl j) → SelectWait cases (some i) sl' m' closed' →
        SelectOk c cases pc (some i) sl' m' closed' := by
  subst hf
  cases pc with
  | install j =>
    refine ⟨h.1, fun sl' m' closed' hsl hw => ⟨hw, ?_, ?_⟩⟩
    · intro k hk
      cases hk
      exact hl
    · intro j' b hj hb
      have hne : j' ≠ i := Nat.ne_of_gt (Nat.lt_of_lt_of_le hl hj)
      rw [hsl j' hne]
      exact h.2.2 j' b hj hb
  | abort j | yielded | load => exact ⟨h, fun _ _ _ _ h => h⟩
  | evict j why =>
    cases why with
    | restart => exact absurd rfl h.2
    | reload => exact ⟨h, fun _ _ _ _ h => h⟩
    | finish k => cases h.1
  | _ => exact hl.elim

theorem QueueOk.call_ne (h : QueueOk calls cap chan fired slot call)
    (hpc : ∀ w, ¬LinkedAt (call c) w) {ch : H} {side : Side}
    (hw : w ∈ (chan ch).waiters side) : w.call ≠ c := by
  rintro rfl
  exact hpc w (h.linked ch side w hw)

variable [DecidableEq C]

theorem Own.congr (h : Own calls chan fired slot call log c) (hcall : call' c = call c)
    (hfired : fired' c = fired c) (hslot : ∀ w : Waiter C, w.call = c → slot' w = slot w)
    (hm : moved log' c = moved log c)
    (hcl : ∀ ch, (chan ch).closed = true → (chan' ch).closed = true) :
    Own calls chan' fired' slot' call' log' c := by
  have hplain : slot' (.plain c) = slot (.plain c) := hslot _ rfl
  have hcase : (fun i => slot' (.case c i)) = fun i => slot (.case c i) :=
    funext fun i => hslot _ rfl
  unfold Own at h ⊢
  rw [hcall, hfired, hplain, hcase, hm]
  cases hc : calls c with
  | send ch v b | recv ch b =>
    rw [hc] at h
    exact PlainOk.mono h hcl
  | close ch =>
    rw [hc] at h
    exact h
  | select cases d =>
    rw [hc] at h
    exact SelectOk.mono h hcl

theorem Own.of_plain (hop : opOf calls (.plain c) = some b) : Own calls chan fired slot call log c ↔
      PlainOk b (call c) (slot (.plain c)) (moved log c) fun h => (chan h).closed := by
  unfold Own
  simp only [opOf] at hop
  cases hc : calls c with
  | send ch v bl | recv ch bl =>
    rw [hc] at hop
    cases hop
    rfl
  | close ch | select cases d =>
    rw [hc] at hop
    cases hop

theorem Own.of_select {cases : List (Case H V)} {d : Bool} (hc : calls c = .select cases d) :
    Own calls chan fired slot call log c ↔
      SelectOk c cases (call c) (fired c) (fun i => slot (.case c i)) (moved log c) fun h => (chan h).closed := by
  unfold Own
  rw [hc]

theorem Own.moved_nil     (h : Own calls chan fired slot call log w.call) (hop : opOf calls w = some b)
    (hl : LinkedAt (call w.call) w) (hc : claimable fired w = true)
    (hslot : slot w = State.freshSlot w b.op) : moved log w.call = [] := by
  cases w with
  | plain c =>
    have hpc : call c = .parked := hl
    have hown := (Own.of_plain hop).mp h
    rw [hpc] at hown
    rcases hown with ⟨-, hm⟩ | ⟨hq, -⟩
    · exact hm
    · rw [hslot] at hq
      cases hop' : b.op <;> rw [hop'] at hq <;> cases hq
  | case c i =>
    obtain ⟨cases, d, hcall, -⟩ := select_of_opOf hop
    exact (((Own.of_select hcall).mp h).wait_of_linked (claimable_case.mp hc) hl).1

theorem Own.fill (h : Own calls chan fired slot call log w.call)
    (hop : opOf calls w = some b) (hl : LinkedAt (call w.call) w) (hc : claimable fired w = true)
    (hslot : ∀ x, x ≠ w → slot' x = slot x) (hq : (slot' w).queued = false)
    (hfill : Filled b.op (slot' w) (moved log' w.call) w.index (chan' b.ch).closed) :
    Own calls chan' (claim fired w) slot' call log' w.call := by
  cases w with
  | plain c =>
    have hpc : call c = .parked := hl
    refine (Own.of_plain hop).mpr ?_
    rw [hpc]
    exact .inr ⟨hq, hfill⟩
  | case c i =>
    obtain ⟨cases, d, hcall, hb⟩ := select_of_opOf hop
    refine (Own.of_select hcall).mpr ?_
    simp only [claim, update_self]
    apply (((Own.of_select hcall).mp h).wait_of_linked (claimable_case.mp hc) hl).2
    · intro j hj
      apply hslot
      rintro ⟨⟩
      exact hj rfl
    · exact ⟨b, hb, hfill⟩

end Runloom.Chan
