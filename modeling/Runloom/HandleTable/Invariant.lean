import Runloom.HandleTable.Model
import Runloom.Transition.Update

/-!
# The sums that the handle table conserves

Three quantities are conserved.  Per handle, the references in threads' hands add up to the count
of its slot while the slot is in its generation and to zero otherwise.  Per slot, the freelist,
one thread inside `register` or `reclaim`, or a positive count own it, one of them at a time.  Per
registration, a positive count, a reclaim on its way and the finished reclaims add up to one.
-/

namespace Runloom.HandleTable

open Transition State List

variable {α φ T : Type*} [DecidableEq T] {cfg : Config} {s u : State α φ T}

/-! ## Weights -/

/-- The references of `h` that a thread has in hand inside an operation. -/
def Pc.refs (h : Handle) : Pc α φ → ℤ
  | .pinRead h' | .pinDone h' (some _) | .derefLoad h' _ | .derefTest h' _ _ =>
    if h' = h then 1 else 0
  | _ => 0

/-- Whether a thread owns slot `i` exclusively. -/
def Pc.excl (i : ℕ) : Pc α φ → ℤ
  | .regGot idx _ _ | .regGen idx _ _ _ | .regSet idx _ _ _ => if idx = i then 1 else 0
  | .recRead h _ | .recStore h _ _ _ | .recFree h _ _ _ | .recPush h _ =>
    if h.idx = i then 1 else 0
  | _ => 0

/-- The thread is reclaiming `h`, before the `free_fn` call. -/
def Pc.reclaiming (h : Handle) : Pc α φ → ℤ
  | .recRead h' _ | .recStore h' _ _ _ | .recFree h' _ _ _ => if h' = h then 1 else 0
  | _ => 0

theorem Pc.refs_nonneg (h : Handle) (c : Pc α φ) : 0 ≤ c.refs h := by
  unfold refs
  split <;> first | split | skip
  all_goals decide

theorem Pc.excl_nonneg (i : ℕ) (c : Pc α φ) : 0 ≤ c.excl i := by
  unfold excl
  split <;> first | split | skip
  all_goals decide

theorem Pc.reclaiming_nonneg (h : Handle) (c : Pc α φ) : 0 ≤ c.reclaiming h := by
  unfold reclaiming
  split <;> first | split | skip
  all_goals decide

variable {h : Handle} {c : Pc α φ}

theorem Pc.excl_of_reclaiming (hc : 0 < c.reclaiming h) : c.excl h.idx = 1 := by
  unfold reclaiming at hc
  split at hc <;> first | (split at hc <;> simp_all [excl]) | simp at hc

@[simp] theorem derefDone_refs (h h' : Handle) (w : Bool) :
    (derefDone h' w : Pc α φ).refs h = 0 := by cases w <;> rfl

@[simp] theorem derefDone_excl (i : ℕ) (h' : Handle) (w : Bool) :
    (derefDone h' w : Pc α φ).excl i = 0 := by cases w <;> rfl

@[simp] theorem derefDone_reclaiming (h h' : Handle) (w : Bool) :
    (derefDone h' w : Pc α φ).reclaiming h = 0 := by cases w <;> rfl

/-! ## The invariant -/

/-- Whether `i` is the index of a slot that exists and is not the reserved one. -/
def inTable (cfg : Config) (s : State α φ T) (i : ℕ) : ℤ :=
  if i ≠ 0 ∧ i < s.nsegs * 2 ^ cfg.segBits then 1 else 0

/-- Whether `h` was issued. -/
def registered (s : State α φ T) (h : Handle) : ℤ := if (s.issued h).isSome then 1 else 0

/-- A slot carries the object and the free function that `h` was issued for. -/
def Carries (x : Slot α φ) (r : Option (α × Option φ)) : Prop :=
  ∃ p fn, r = some (p, fn) ∧ x.ptr = some p ∧ x.freeFn = fn

def PcOk (slot : ℕ → Slot α φ) (issued : Handle → Option (α × Option φ)) : Pc α φ → Prop
  | .regGen idx gen _ _ => gen = (slot idx).genref.gen
  | .regSet idx gen p fn =>
    gen = (slot idx).genref.gen ∧ (slot idx).ptr = some p ∧ (slot idx).freeFn = fn
  | .pinDone h (some p) => ∃ fn, issued h = some (p, fn)
  | .derefTest h gr _ => gr.gen = h.gen ∧ gr.rc ≠ 0
  | .recRead h _ => (slot h.idx).genref.gen = h.gen ∧ Carries (slot h.idx) (issued h)
  | .recStore h p fn _ =>
    (slot h.idx).genref.gen = h.gen ∧ ∃ p', issued h = some (p', fn) ∧ p = some p'
  | .recFree h p fn _ =>
    h.gen < (slot h.idx).genref.gen ∧ ∃ p', issued h = some (p', fn) ∧ p = some p'
  | _ => True

/-- The references that a word counts for the handles of generation `gen`. -/
def Genref.count (gr : Genref) (gen : ℕ) : ℤ := if gr.gen = gen then gr.rc else 0

def Genref.live (gr : Genref) : ℤ := if 0 < gr.rc then 1 else 0

def Genref.liveIn (gr : Genref) (gen : ℕ) : ℤ := if gr.gen = gen ∧ 0 < gr.rc then 1 else 0

/-- The references that a slot counts for `h`. -/
def count (s : State α φ T) (h : Handle) : ℤ := (s.slot h.idx).genref.count h.gen

/-- The references of `h` outside any operation: pins to be given back, and the owner's. -/
def outside (s : State α φ T) (h : Handle) : ℤ := s.held h + (s.owner h).toNat

/-- The freelist entries of slot `i`, and whether its count is positive. -/
def unheld (s : State α φ T) (i : ℕ) : ℤ :=
  s.free.count i + (s.slot i).genref.live

/-- The finished reclaims of `h`, and whether its registration is live. -/
def unreclaimed (s : State α φ T) (h : Handle) : ℤ :=
  (s.finalized h).length + (s.slot h.idx).genref.liveIn h.gen

/-- What the table says about itself. -/
structure TableOk (cfg : Config) (s : State α φ T) : Prop where
  gen : ∀ i, (s.slot i).genref.gen = s.reclaims i
  gen_lt : ∀ i, (s.slot i).genref.gen < 2 ^ 32
  rc_lt : ∀ i, (s.slot i).genref.rc < 2 ^ 32
  live : ∀ i, 0 < (s.slot i).genref.rc → Carries (s.slot i) (s.issued ⟨(s.slot i).genref.gen, i⟩)
  issued_le : ∀ h, (s.issued h).isSome → h.gen ≤ (s.slot h.idx).genref.gen
  finalized_lt : ∀ h, s.finalized h ≠ [] → h.gen < (s.slot h.idx).genref.gen
  finalized_eq : ∀ h, ∀ e ∈ s.finalized h, ∃ p fn, s.issued h = some (p, fn) ∧ e = (fn, some p)
  nsegs_le : s.nsegs ≤ cfg.maxSegs

variable [Fintype T]

structure Inv (cfg : Config) (s : State α φ T) : Prop where
  refs : ∀ h, ∑ t, (s.pc t).refs h + outside s h = count s h
  excl : ∀ i, ∑ t, (s.pc t).excl i + unheld s i = inTable cfg s i
  once : ∀ h, ∑ t, (s.pc t).reclaiming h + unreclaimed s h = registered s h
  pcOk : ∀ t, PcOk s.slot s.issued (s.pc t)
  table : TableOk cfg s

/-! ## Consequences -/

theorem Genref.live_nonneg (gr : Genref) : 0 ≤ gr.live := by
  unfold live
  split <;> decide

section

omit [DecidableEq T] [Fintype T]

theorem inTable_le_one (cfg : Config) (s : State α φ T) (i : ℕ) : inTable cfg s i ≤ 1 := by
  unfold inTable
  split <;> decide

theorem outside_nonneg (s : State α φ T) (h : Handle) : 0 ≤ outside s h := by
  unfold outside
  omega

end

variable {t : T} {i : ℕ}

omit [DecidableEq T] in
theorem Inv.of_excl (hI : Inv cfg s) (ht : (s.pc t).excl i = 1) :
    (s.slot i).genref.rc = 0 ∧ i ∉ s.free ∧ inTable cfg s i = 1 := by
  have hle : (s.pc t).excl i ≤ ∑ t, (s.pc t).excl i :=
    Finset.single_le_sum (fun t _ => Pc.excl_nonneg i (s.pc t)) (Finset.mem_univ t)
  have hsum := hI.excl i
  have hnn := Genref.live_nonneg (s.slot i).genref
  have hle1 := inTable_le_one cfg s i
  unfold unheld at hsum
  have hlive : (s.slot i).genref.live = 0 := by omega
  refine ⟨?_, count_eq_zero.mp (by omega), by omega⟩
  by_contra hrc
  rw [Genref.live, if_pos (by omega)] at hlive
  omega

theorem Inv.excl_unique (hI : Inv cfg s) {t' : T} (ht : (s.pc t).excl i = 1)
    (ht' : (s.pc t').excl i = 1) : t = t' := by
  have hle : ∑ t, (s.pc t).excl i ≤ 1 := by
    have hsum := hI.excl i
    have hnn := Genref.live_nonneg (s.slot i).genref
    have hle1 := inTable_le_one cfg s i
    unfold unheld at hsum
    omega
  exact eq_of_sum_le_one (Finset.mem_univ t) (Finset.mem_univ t')
    (fun t => Pc.excl_nonneg i (s.pc t)) hle (by omega) (by omega)

section

omit [DecidableEq T]

theorem Inv.of_refs (hI : Inv cfg s) (hpos : 0 < ∑ t, (s.pc t).refs h + outside s h) :
    (s.slot h.idx).genref.gen = h.gen ∧ 0 < (s.slot h.idx).genref.rc := by
  rw [hI.refs h, count, Genref.count] at hpos
  split_ifs at hpos with hgen
  · exact ⟨hgen, by omega⟩
  · omega

theorem Inv.of_refs_pc (hI : Inv cfg s) (ht : (s.pc t).refs h = 1) :
    (s.slot h.idx).genref.gen = h.gen ∧ 0 < (s.slot h.idx).genref.rc := by
  apply hI.of_refs
  have hle : (s.pc t).refs h ≤ ∑ t, (s.pc t).refs h :=
    Finset.single_le_sum (fun t _ => Pc.refs_nonneg h (s.pc t)) (Finset.mem_univ t)
  have := outside_nonneg s h
  omega

end

/-! ## How a step keeps the sums -/

omit [DecidableEq T] [Fintype T] in
theorem PcOk.congr {slot slot' : ℕ → Slot α φ} {issued issued' : Handle → Option (α × Option φ)}
    (h : PcOk slot issued c)
    (hissued : ∀ h, (issued h).isSome → issued' h = issued h)
    (hslot : ∀ i, c.excl i = 1 → slot' i = slot i) : PcOk slot' issued' c := by
  cases c with
  | regGen idx gen p fn | regSet idx gen p fn =>
    simp only [PcOk]
    rw [hslot idx (by simp [Pc.excl])]
    exact h
  | pinDone h' r =>
    cases r with
    | none => trivial
    | some p =>
      obtain ⟨fn, hfn⟩ := h
      exact ⟨fn, (hissued h' (by simp [hfn])).trans hfn⟩
  | derefTest h' gr w => exact h
  | recRead h' w =>
    obtain ⟨hgen, p, fn, hi, hp, hfn⟩ := h
    simp only [PcOk]
    rw [hslot h'.idx (by simp [Pc.excl]), hissued h' (by simp [hi])]
    exact ⟨hgen, p, fn, hi, hp, hfn⟩
  | recStore h' p fn w | recFree h' p fn w =>
    obtain ⟨hgen, p', hi, hp⟩ := h
    simp only [PcOk]
    rw [hslot h'.idx (by simp [Pc.excl]), hissued h' (by simp [hi])]
    exact ⟨hgen, p', hi, hp⟩
  | _ => trivial

/-- One thread moves to `c`, and only slots in its own hands are written. -/
theorem Inv.advance (hI : Inv cfg s) (hpc : u.pc = Function.update s.pc t c)
    (hrefs : ∀ h, count u h - outside u h - c.refs h = count s h - outside s h - (s.pc t).refs h)
    (hexcl : ∀ i, inTable cfg u i - unheld u i - c.excl i = inTable cfg s i - unheld s i - (s.pc t).excl i)
    (honce : ∀ h, registered u h - unreclaimed u h - c.reclaiming h =
      registered s h - unreclaimed s h - (s.pc t).reclaiming h)
    (hissued : ∀ h, (s.issued h).isSome → u.issued h = s.issued h)
    (hslot : ∀ i, (∀ t', t' ≠ t → (s.pc t').excl i ≠ 1) ∨ u.slot i = s.slot i)
    (hok : PcOk u.slot u.issued c) (htable : TableOk cfg u) : Inv cfg u := by
  refine ⟨fun h => ?_, fun i => ?_, fun h => ?_, fun t' => ?_, htable⟩
  · have hold := hI.refs h
    have := hrefs h
    rw [hpc, sum_comp_update (Finset.mem_univ t) (Pc.refs h)]
    omega
  · have hold := hI.excl i
    have := hexcl i
    rw [hpc, sum_comp_update (Finset.mem_univ t) (Pc.excl i)]
    omega
  · have hold := hI.once h
    have := honce h
    rw [hpc, sum_comp_update (Finset.mem_univ t) (Pc.reclaiming h)]
    omega
  · rw [hpc]
    by_cases htt : t' = t
    · subst htt
      simpa only [update_self] using hok
    · simp only [update_of_ne htt]
      apply (hI.pcOk t').congr hissued
      intro i hi
      exact (hslot i).resolve_left fun hno => hno t' htt hi

theorem Inv.goto (hI : Inv cfg s) (held : Handle → ℕ) (owner : Handle → Bool)     (hrefs : ∀ h, (held h : ℤ) + (owner h).toNat + c.refs h = outside s h + (s.pc t).refs h)
    (hexcl : ∀ i, c.excl i = (s.pc t).excl i)
    (hrec : ∀ h, c.reclaiming h = (s.pc t).reclaiming h) (hok : PcOk s.slot s.issued c) :
    Inv cfg (State.goto { s with held := held, owner := owner } t c) := by
  apply hI.advance (t := t) (c := c) rfl
  · intro h
    have hcount : count (State.goto { s with held := held, owner := owner } t c) h = count s h := rfl
    have hout : outside (State.goto { s with held := held, owner := owner } t c) h + c.refs h =
        outside s h + (s.pc t).refs h := hrefs h
    omega
  · intro i
    rw [hexcl]
    rfl
  · intro h
    rw [hrec]
    rfl
  · exact fun _ _ => rfl
  · exact fun _ => .inr rfl
  · exact hok
  · have hT := hI.table
    exact ⟨hT.gen, hT.gen_lt, hT.rc_lt, hT.live, hT.issued_le, hT.finalized_lt, hT.finalized_eq, hT.nsegs_le⟩

/-! ## Steps on a slot in the thread's hands -/

section

omit [DecidableEq T] [Fintype T]

@[simp] theorem setSlot_self (s : State α φ T) (i : ℕ) (x : Slot α φ) : (s.setSlot i x).slot i = x := by
  simp [State.setSlot]

theorem setSlot_of_ne (s : State α φ T) {j : ℕ} (hj : j ≠ i) (x : Slot α φ) :
    (s.setSlot i x).slot j = s.slot j := by
  simp [State.setSlot, hj]

end

theorem Inv.others_not_excl (hI : Inv cfg s) (ht : (s.pc t).excl i = 1) : ∀ t', t' ≠ t → (s.pc t').excl i ≠ 1 :=
  fun _ hne hc => hne (hI.excl_unique hc ht)

theorem Inv.setSlot (hI : Inv cfg s) {x : Slot α φ}
    (ht : (s.pc t).excl i = 1) (hgr : x.genref = (s.slot i).genref)
    (hrefs : ∀ h, c.refs h = (s.pc t).refs h) (hexcl : ∀ j, c.excl j = (s.pc t).excl j)
    (hrec : ∀ h, c.reclaiming h = (s.pc t).reclaiming h)
    (hok : PcOk (s.setSlot i x).slot s.issued c) :
    Inv cfg ((s.setSlot i x).goto t c) := by
  have hgenref : ∀ j, ((s.setSlot i x).slot j).genref = (s.slot j).genref := by
    intro j
    by_cases hj : j = i
    · subst hj
      rw [setSlot_self, hgr]
    · rw [setSlot_of_ne s hj]
  have hrc := (hI.of_excl ht).1
  have hT := hI.table
  apply hI.advance (t := t) (c := c) rfl
  · intro h
    simp only [count, State.goto, hgenref, hrefs]
    rfl
  · intro j
    simp only [unheld, State.goto, hgenref, hexcl]
    rfl
  · intro h
    simp only [unreclaimed, State.goto, hgenref, hrec]
    rfl
  · exact fun _ _ => rfl
  · intro j
    by_cases hj : j = i
    · subst hj
      exact .inl (hI.others_not_excl ht)
    · exact .inr (setSlot_of_ne s hj x)
  · exact hok
  · refine ⟨fun j => ?_, fun j => ?_, fun j => ?_, fun j hj => ?_, fun h hh => ?_, fun h hh => ?_,
      hT.finalized_eq, hT.nsegs_le⟩
    · exact (congrArg Genref.gen (hgenref j)).trans (hT.gen j)
    · exact (congrArg Genref.gen (hgenref j)).trans_lt (hT.gen_lt j)
    · exact (congrArg Genref.rc (hgenref j)).trans_lt (hT.rc_lt j)
    · have hne : j ≠ i := by
        rintro rfl
        rw [State.goto, hgenref, hrc] at hj
        exact absurd hj (lt_irrefl 0)
      simp only [State.goto, setSlot_of_ne s hne] at hj ⊢
      exact hT.live j hj
    · exact (hT.issued_le h hh).trans_eq (congrArg Genref.gen (hgenref h.idx)).symm
    · exact (hT.finalized_lt h hh).trans_eq (congrArg Genref.gen (hgenref h.idx)).symm

/-! ## Steps on the packed word -/

theorem Inv.issued_eq_none (hI : Inv cfg s) {idx : ℕ} (ht : (s.pc t).excl idx = 1)
    (hrec : ∀ h, (s.pc t).reclaiming h = 0) :
    s.issued ⟨(s.slot idx).genref.gen, idx⟩ = none := by
  by_contra hne
  have hsome := Option.isSome_iff_ne_none.mpr hne
  have honce := hI.once ⟨(s.slot idx).genref.gen, idx⟩
  have hfin : s.finalized ⟨(s.slot idx).genref.gen, idx⟩ = [] := by
    by_contra hfin
    exact absurd (hI.table.finalized_lt _ hfin) (lt_irrefl _)
  rw [registered, if_pos hsome, unreclaimed, hfin, Genref.liveIn,
    if_neg (by simp [(hI.of_excl ht).1]), length_nil] at honce
  -- the registration would still be on its way through another thread's reclaim
  obtain ⟨t', -, ht'⟩ := exists_pos_of_sum_pos (S := Finset.univ)
    (f := fun t => (s.pc t).reclaiming ⟨(s.slot idx).genref.gen, idx⟩) (by omega)
  have heq := hI.excl_unique ht (Pc.excl_of_reclaiming ht')
  subst heq
  rw [hrec] at ht'
  exact absurd ht' (lt_irrefl 0)

/-- A write of the packed word of one slot. -/
theorem Inv.setGenref (hI : Inv cfg s) (issued : Handle → Option (α × Option φ))
    (owner : Handle → Bool) (reclaims : ℕ → ℕ) {gr : Genref}
    (hlt : gr.gen < 2 ^ 32 ∧ gr.rc < 2 ^ 32)
    (hgen : (s.slot i).genref.gen ≤ gr.gen)
    (hreclaims : reclaims i = gr.gen ∧ ∀ j, j ≠ i → reclaims j = s.reclaims j)
    (hissued : ∀ h, (s.issued h).isSome → issued h = s.issued h)
    (hnew : ∀ h, (issued h).isSome → (s.issued h).isSome ∨ h.idx = i ∧ h.gen ≤ gr.gen)
    (hlive : 0 < gr.rc → Carries (s.slot i) (issued ⟨gr.gen, i⟩))
    (hown : ∀ h, h.idx ≠ i → owner h = s.owner h ∧ c.refs h = (s.pc t).refs h ∧
      c.reclaiming h = (s.pc t).reclaiming h ∧ issued h = s.issued h)
    (hrefs : ∀ g, gr.count g - (owner ⟨g, i⟩).toNat - c.refs ⟨g, i⟩ =
      (s.slot i).genref.count g - (s.owner ⟨g, i⟩).toNat - (s.pc t).refs ⟨g, i⟩)
    (hexcl : (∀ j, j ≠ i → c.excl j = (s.pc t).excl j) ∧
      gr.live + c.excl i = (s.slot i).genref.live + (s.pc t).excl i)
    (honce : ∀ g, (if (issued ⟨g, i⟩).isSome then 1 else 0) - gr.liveIn g - c.reclaiming ⟨g, i⟩ =
      registered s ⟨g, i⟩ - (s.slot i).genref.liveIn g - (s.pc t).reclaiming ⟨g, i⟩)
    (hhold : (∀ t', t' ≠ t → (s.pc t').excl i ≠ 1))
    (hok : PcOk (s.setGenref i gr).slot issued c) :
    Inv cfg (State.goto { s.setGenref i gr with
      issued := issued, owner := owner, reclaims := reclaims } t c) := by
  have hT := hI.table
  have hself : (s.setGenref i gr).slot i = { s.slot i with genref := gr } := setSlot_self s i _
  have hother : ∀ j, j ≠ i → (s.setGenref i gr).slot j = s.slot j :=
    fun j hj => setSlot_of_ne s hj _
  apply hI.advance (t := t) (c := c) rfl
  · intro h
    by_cases hi : h.idx = i
    · obtain ⟨g, rfl⟩ : ∃ g, h = ⟨g, i⟩ := ⟨h.gen, by rw [← hi]⟩
      have hnew := hrefs g
      simp only [count, outside, State.goto, hself]
      show gr.count g - ((s.held ⟨g, i⟩ : ℤ) + _) - _ = (s.slot i).genref.count g - _ - _
      omega
    · obtain ⟨ho, hc, -, -⟩ := hown h hi
      simp only [count, outside, State.goto, hother _ hi, ho, hc]
      rfl
  · intro j
    by_cases hj : j = i
    · subst hj
      have := hexcl.2
      simp only [unheld, State.goto, hself]
      show inTable cfg s j - ((s.free.count j : ℤ) + _) - _ = _
      omega
    · simp only [unheld, State.goto, hother j hj, hexcl.1 j hj]
      rfl
  · intro h
    by_cases hi : h.idx = i
    · obtain ⟨g, rfl⟩ : ∃ g, h = ⟨g, i⟩ := ⟨h.gen, by rw [← hi]⟩
      have := honce g
      simp only [unreclaimed, State.goto, hself]
      show (if (issued ⟨g, i⟩).isSome then 1 else 0) - (((s.finalized ⟨g, i⟩).length : ℤ) + _) -
        _ = _
      omega
    · obtain ⟨-, -, hc, his⟩ := hown h hi
      simp only [unreclaimed, registered, State.goto, hother _ hi, hc, his]
      rfl
  · exact hissued
  · intro j
    by_cases hj : j = i
    · subst hj
      exact .inl hhold
    · exact .inr (hother j hj)
  · exact hok
  · refine ⟨fun j => ?_, fun j => ?_, fun j => ?_, fun j hj => ?_, fun h hh => ?_, fun h hh => ?_,
      fun h e he => ?_, hT.nsegs_le⟩
    · by_cases hj : j = i
      · subst hj
        simp [State.goto, hself, hreclaims.1]
      · simp only [State.goto, hother j hj, hreclaims.2 j hj, hT.gen]
    · by_cases hj : j = i
      · subst hj
        simpa only [State.goto, hself] using hlt.1
      · simpa only [State.goto, hother j hj] using hT.gen_lt j
    · by_cases hj : j = i
      · subst hj
        simpa only [State.goto, hself] using hlt.2
      · simpa only [State.goto, hother j hj] using hT.rc_lt j
    · by_cases hji : j = i
      · subst hji
        simp only [State.goto, hself] at hj ⊢
        exact hlive hj
      · simp only [State.goto, hother j hji] at hj ⊢
        have hold := hT.live j hj
        obtain ⟨p, fn, hi, -⟩ := id hold
        rwa [hissued _ (by simp [hi])]
    · have hle : (s.slot h.idx).genref.gen ≤ ((s.setGenref i gr).slot h.idx).genref.gen := by
        by_cases hi : h.idx = i
        · rw [hi, hself]
          exact hgen
        · rw [hother _ hi]
      rcases hnew h hh with hs | ⟨hi, hg⟩
      · exact (hT.issued_le h hs).trans hle
      · simp only [State.goto, hi, hself]
        exact hg
    · have hold := hT.finalized_lt h hh
      by_cases hi : h.idx = i
      · simp only [State.goto, hi, hself] at hold ⊢
        exact hold.trans_le hgen
      · simpa only [State.goto, hother _ hi] using hold
    · obtain ⟨p, fn, hi, heq⟩ := hT.finalized_eq h e he
      exact ⟨p, fn, (hissued h (by simp [hi])).trans hi, heq⟩

theorem pack_eq {gen rc : ℕ} (hgen : gen < 2 ^ 32) (hrc : rc < 2 ^ 32) : pack gen rc = ⟨gen, rc⟩ := by
  rw [pack, Nat.mod_eq_of_lt hgen, Nat.mod_eq_of_lt hrc]

variable {fn : Option φ}

/-- The release store of `rl_handle_register`: the owner's reference is the first. -/
theorem Inv.issue (hI : Inv cfg s) {idx gen : ℕ} {p : α} (ht : s.pc t = .regSet idx gen p fn) :
    Inv cfg ((s.issue idx gen p fn).goto t .idle) := by
  have hex : (s.pc t).excl idx = 1 := by simp [ht, Pc.excl]
  have hrec : ∀ h, (s.pc t).reclaiming h = 0 := by simp [ht, Pc.reclaiming]
  obtain ⟨rfl, hp, hfn⟩ : gen = (s.slot idx).genref.gen ∧ _ ∧ _ := by
    simpa only [ht, PcOk] using hI.pcOk t
  have hrc := (hI.of_excl hex).1
  have hnone := hI.issued_eq_none hex hrec
  have hlt := hI.table.gen_lt idx
  rw [State.issue, pack_eq hlt (by decide)]
  apply hI.setGenref _ _ s.reclaims (t := t) (c := .idle)
  · exact ⟨hlt, Nat.one_lt_two_pow (by decide)⟩
  · exact le_rfl
  · exact ⟨(hI.table.gen idx).symm, fun _ _ => rfl⟩
  · intro h hsome
    apply update_of_ne
    rintro rfl
    simp [hnone] at hsome
  · intro h hsome
    by_cases hh : h = ⟨(s.slot idx).genref.gen, idx⟩
    · subst hh
      exact .inr ⟨rfl, le_rfl⟩
    · rw [update_of_ne hh] at hsome
      exact .inl hsome
  · intro _
    exact ⟨p, fn, update_self _ _ _, hp, hfn⟩
  · intro h hi
    have hh : h ≠ ⟨(s.slot idx).genref.gen, idx⟩ := by
      rintro rfl
      exact hi rfl
    rw [update_of_ne hh, update_of_ne hh]
    simp [ht, Pc.refs, Pc.reclaiming]
  · intro g
    have hout := hI.refs ⟨g, idx⟩
    have hnn := Finset.sum_nonneg fun t (_ : t ∈ Finset.univ) => Pc.refs_nonneg ⟨g, idx⟩ (s.pc t)
    simp only [count, Genref.count, hrc, outside] at hout
    have howner : (s.owner ⟨g, idx⟩).toNat = 0 := by split_ifs at hout <;> omega
    by_cases hg : g = (s.slot idx).genref.gen
    · subst hg
      simp [Genref.count, hrc, howner, ht, Pc.refs]
    · have hne : (⟨g, idx⟩ : Handle) ≠ ⟨(s.slot idx).genref.gen, idx⟩ := by simpa using hg
      rw [update_of_ne hne]
      simp [Genref.count, Ne.symm hg, ht, Pc.refs]
  · refine ⟨fun j hj => ?_, ?_⟩
    · simp [ht, Pc.excl, Ne.symm hj]
    · simp [ht, Pc.excl, Genref.live, hrc]
  · intro g
    by_cases hg : g = (s.slot idx).genref.gen
    · subst hg
      simp [Genref.liveIn, registered, hnone, hrc, ht, Pc.reclaiming]
    · have hne : (⟨g, idx⟩ : Handle) ≠ ⟨(s.slot idx).genref.gen, idx⟩ := by simpa using hg
      rw [update_of_ne hne]
      simp [Genref.liveIn, registered, Ne.symm hg, ht, Pc.reclaiming]
  · exact hI.others_not_excl hex
  · trivial

theorem Inv.setRc (hI : Inv cfg s) {rc : ℕ}
    (hgen : (s.slot h.idx).genref.gen = h.gen) (hpos : 0 < (s.slot h.idx).genref.rc)
    (hlt : rc < 2 ^ 32)
    (hrefs : ∀ h', c.refs h' = (s.pc t).refs h' +
      if h' = h then (rc : ℤ) - (s.slot h.idx).genref.rc else 0)
    (hexcl : ∀ j, (s.pc t).excl j = 0 ∧ c.excl j = if j = h.idx ∧ rc = 0 then 1 else 0)
    (hrec : ∀ h', (s.pc t).reclaiming h' = 0 ∧ c.reclaiming h' = if h' = h ∧ rc = 0 then 1 else 0)
    (hok : PcOk (s.setGenref h.idx ⟨h.gen, rc⟩).slot s.issued c) :
    Inv cfg ((s.setGenref h.idx (pack h.gen rc)).goto t c) := by
  have hglt : h.gen < 2 ^ 32 := hgen ▸ hI.table.gen_lt h.idx
  rw [pack_eq hglt hlt]
  apply hI.setGenref s.issued s.owner s.reclaims (t := t) (c := c)
  · exact ⟨hglt, hlt⟩
  · exact hgen.le
  · exact ⟨(hI.table.gen h.idx).symm.trans hgen, fun _ _ => rfl⟩
  · exact fun _ _ => rfl
  · exact fun _ hs => .inl hs
  · intro _
    have hlive := hI.table.live h.idx hpos
    rwa [hgen] at hlive
  · intro h' hi
    have hne : h' ≠ h := by
      rintro rfl
      exact hi rfl
    rw [hrefs, (hrec h').1, (hrec h').2]
    simp [hne]
  · intro g
    rw [hrefs]
    by_cases hg : g = h.gen
    · subst hg
      simp only [Genref.count, hgen, if_pos]
      omega
    · have hne : (⟨g, h.idx⟩ : Handle) ≠ h := fun hc => hg (congrArg Handle.gen hc)
      simp only [Genref.count, hgen, if_neg (Ne.symm hg), if_neg hne]
      omega
  · refine ⟨fun j hj => ?_, ?_⟩
    · rw [(hexcl j).1, (hexcl j).2]
      simp [hj]
    · rw [(hexcl h.idx).1, (hexcl h.idx).2]
      simp only [Genref.live, if_pos hpos]
      by_cases hz : rc = 0
      · simp [hz]
      · simp [hz, Nat.pos_of_ne_zero hz]
  · intro g
    rw [(hrec _).1, (hrec _).2, registered]
    by_cases hg : g = h.gen
    · subst hg
      simp only [Genref.liveIn, hgen, hpos]
      by_cases hz : rc = 0
      · simp [hz]
      · simp [hz, Nat.pos_of_ne_zero hz]
    · have hne : (⟨g, h.idx⟩ : Handle) ≠ h := fun hc => hg (congrArg Handle.gen hc)
      simp [Genref.liveIn, hgen, Ne.symm hg, hne]
  · intro t' _ hc
    exact absurd (hI.of_excl hc).1 (by omega)
  · exact hok

variable {wait : Bool}

theorem Inv.bumpGen (hI : Inv cfg s) {p : Option α}
    (ht : s.pc t = .recStore h p fn wait) (hlt : s.reclaims h.idx + 1 < 2 ^ 32) :
    Inv cfg ((s.bumpGen h).goto t (.recFree h p fn wait)) := by
  have hex : (s.pc t).excl h.idx = 1 := by simp [ht, Pc.excl]
  obtain ⟨hgen, p', hissued, hp⟩ : (s.slot h.idx).genref.gen = h.gen ∧ _ := by
    simpa only [ht, PcOk] using hI.pcOk t
  have hrc := (hI.of_excl hex).1
  have hreclaims : s.reclaims h.idx = h.gen := (hI.table.gen h.idx).symm.trans hgen
  rw [State.bumpGen, pack_eq (by omega) (by decide)]
  apply hI.setGenref s.issued s.owner _ (t := t) (c := .recFree h p fn wait)
  · exact ⟨by simp only; omega, by simp⟩
  · simp only
    omega
  · exact ⟨by simp [hreclaims], fun j hj => update_of_ne hj _ _⟩
  · exact fun _ _ => rfl
  · exact fun _ hs => .inl hs
  · exact fun hc => absurd hc (lt_irrefl 0)
  · intro h' _
    simp [ht, Pc.refs, Pc.reclaiming]
  · intro g
    simp [Genref.count, hrc, ht, Pc.refs]
  · simp [Genref.live, hrc, ht, Pc.excl]
  · intro g
    simp [Genref.liveIn, hrc, ht, Pc.reclaiming, registered]
  · exact hI.others_not_excl hex
  · refine ⟨?_, p', hissued, hp⟩
    simp [State.setGenref]

theorem Inv.finalize (hI : Inv cfg s) {p : Option α} (ht : s.pc t = .recFree h p fn wait) :
    Inv cfg (State.goto { s with
      finalized := Function.update s.finalized h (s.finalized h ++ [(fn, p)]) } t (.recPush h wait)) := by
  obtain ⟨hgen, p', hissued, rfl⟩ : h.gen < (s.slot h.idx).genref.gen ∧ _ := by
    simpa only [ht, PcOk] using hI.pcOk t
  have hT := hI.table
  apply hI.advance (t := t) (c := .recPush h wait) rfl
  · intro h'
    rw [ht]
    rfl
  · intro i
    rw [ht]
    rfl
  · intro h'
    rw [ht]
    show registered s h' - (_ + (s.slot h'.idx).genref.liveIn h'.gen) - 0 = _
    by_cases hh : h' = h
    · subst hh
      simp [unreclaimed, State.goto, Pc.reclaiming]
      omega
    · simp [unreclaimed, State.goto, Pc.reclaiming, update_of_ne hh, Ne.symm hh]
  · exact fun _ _ => rfl
  · exact fun _ => .inr rfl
  · trivial
  · refine ⟨hT.gen, hT.gen_lt, hT.rc_lt, hT.live, hT.issued_le, fun h' hh => ?_, fun h' e he => ?_, hT.nsegs_le⟩
    · by_cases hh' : h' = h
      · subst hh'
        exact hgen
      · simp only [State.goto, update_of_ne hh'] at hh
        exact hT.finalized_lt h' hh
    · by_cases hh' : h' = h
      · subst hh'
        simp only [State.goto, update_self, mem_append, mem_singleton] at he
        rcases he with he | rfl
        · exact hT.finalized_eq h' e he
        · exact ⟨p', fn, hissued, rfl⟩
      · simp only [State.goto, update_of_ne hh'] at he
        exact hT.finalized_eq h' e he

/-! ## The freelist -/

theorem Inv.push (hI : Inv cfg s) (ht : s.pc t = .recPush h wait) :
    Inv cfg (State.goto { s with free := h.idx :: s.free } t (derefDone h wait)) := by
  have hT := hI.table
  apply hI.advance (t := t) (c := derefDone h wait) rfl
  · intro h'
    rw [ht, derefDone_refs]
    rfl
  · intro i
    rw [ht, derefDone_excl]
    show inTable cfg s i - (((h.idx :: s.free).count i : ℤ) + _) - 0 =
      inTable cfg s i - _ - (if h.idx = i then 1 else 0)
    simp only [unheld, State.goto, count_cons, beq_iff_eq]
    split_ifs <;> omega
  · intro h'
    rw [ht, derefDone_reclaiming]
    rfl
  · exact fun _ _ => rfl
  · exact fun _ => .inr rfl
  · cases wait <;> trivial
  · exact ⟨hT.gen, hT.gen_lt, hT.rc_lt, hT.live, hT.issued_le, hT.finalized_lt, hT.finalized_eq, hT.nsegs_le⟩

theorem Inv.take (hI : Inv cfg s) {idx : ℕ} {rest : List ℕ} {p : α}
    (ht : s.pc t = .idle) (hfree : s.free = idx :: rest) :
    Inv cfg (State.goto { s with free := rest } t (.regGot idx p fn)) := by
  have hT := hI.table
  apply hI.advance (t := t) (c := .regGot idx p fn) rfl
  · intro h'
    rw [ht]
    rfl
  · intro i
    rw [ht]
    show inTable cfg s i - ((rest.count i : ℤ) + _) - (if idx = i then 1 else 0) = inTable cfg s i - _ - 0
    simp only [unheld, State.goto, hfree, count_cons, beq_iff_eq]
    split_ifs <;> omega
  · intro h'
    rw [ht]
    rfl
  · exact fun _ _ => rfl
  · exact fun _ => .inr rfl
  · trivial
  · exact ⟨hT.gen, hT.gen_lt, hT.rc_lt, hT.live, hT.issued_le, hT.finalized_lt, hT.finalized_eq, hT.nsegs_le⟩

omit [DecidableEq T] in
theorem Inv.grow (hI : Inv cfg s) {callocOk : Bool} (h : s.grow cfg callocOk = some u) :
    Inv cfg u ∧ u.pc = s.pc := by
  by_cases hfull : cfg.maxSegs ≤ s.nsegs ∨ callocOk = false
  · rw [State.grow, if_pos hfull] at h
    cases h
  rw [State.grow, if_neg hfull, Option.some.injEq] at h
  subst h
  push Not at hfull
  have hT := hI.table
  refine ⟨⟨hI.refs, fun i => ?_, hI.once, hI.pcOk, ⟨hT.gen, hT.gen_lt, hT.rc_lt, hT.live,
    hT.issued_le, hT.finalized_lt, hT.finalized_eq, hfull.1⟩⟩, rfl⟩
  have hold := hI.excl i
  have hseg : 0 < 2 ^ cfg.segBits := Nat.two_pow_pos _
  simp only [unheld, inTable, count_append, count_reverse, count_range_1', Nat.cast_add, Nat.succ_mul] at hold ⊢
  -- the new indices are those between the old end of the table and the new one
  have hbase : s.nsegs = 0 → s.nsegs * 2 ^ cfg.segBits = 0 := fun h0 => by simp [h0]
  have hbase' : s.nsegs ≠ 0 → 0 < s.nsegs * 2 ^ cfg.segBits :=
    fun h0 => Nat.mul_pos (Nat.pos_of_ne_zero h0) hseg
  generalize s.nsegs * 2 ^ cfg.segBits = base at hold hbase hbase' ⊢
  generalize 2 ^ cfg.segBits = size at hseg ⊢
  by_cases h0 : s.nsegs = 0
  · have hzero := hbase h0
    simp only [h0, if_pos] at hold ⊢
    split_ifs at hold ⊢ <;> omega
  · have hpos := hbase' h0
    simp only [h0, if_false] at hold ⊢
    split_ifs at hold ⊢ <;> omega

theorem Inv.takeSlot (hI : Inv cfg s) {p : α} {callocOk : Bool}
    (ht : s.pc t = .idle) (h : s.takeSlot cfg t p fn callocOk = some u) : Inv cfg u := by
  unfold State.takeSlot at h
  cases hfree : s.free with
  | cons idx rest =>
    simp only [hfree, Option.some.injEq] at h
    subst h
    exact hI.take ht hfree
  | nil =>
    simp only [hfree] at h
    cases hgrow : s.grow cfg callocOk with
    | none =>
      simp only [hgrow, Option.some.injEq] at h
      exact h ▸ hI
    | some s' =>
      obtain ⟨hI', hpc⟩ := hI.grow hgrow
      simp only [hgrow] at h
      cases hfree' : s'.free with
      | nil => simp [hfree'] at h
      | cons idx rest =>
        simp only [hfree', Option.some.injEq] at h
        subst h
        exact hI'.take (by rw [hpc, ht]) hfree'

/-! ## Every step keeps the sums -/

section

variable (hI : Inv cfg s)
include hI

theorem Inv.pinTest {gr : Genref} (ht : s.pc t = .pinTest h gr)
    (hlt : gr.rc + 1 < 2 ^ 32 ∨ (s.slot h.idx).genref ≠ gr) : Inv cfg (s.pinTest t h gr) := by
  have hstay : ∀ c : Pc α φ, (∀ h', c.refs h' = 0) → (∀ i, c.excl i = 0) →
      (∀ h', c.reclaiming h' = 0) → PcOk s.slot s.issued c → Inv cfg (s.goto t c) := by
    intro c h1 h2 h3 hok
    apply hI.goto s.held s.owner
    · intro h'
      rw [h1, ht]
      rfl
    · intro i
      rw [h2, ht]
      rfl
    · intro h'
      rw [h3, ht]
      rfl
    · exact hok
  unfold State.pinTest
  split_ifs with hstale heq
  · exact hstay _ (fun _ => rfl) (fun _ => rfl) (fun _ => rfl) trivial
  · push Not at hstale
    apply hI.setRc
    · rw [heq, hstale.1]
    · rw [heq]
      exact Nat.pos_of_ne_zero hstale.2
    · exact hlt.resolve_right fun hne => hne heq
    · intro h'
      simp only [ht, Pc.refs, heq, eq_comm (a := h)]
      split_ifs <;> omega
    · intro j
      simp [ht, Pc.excl]
    · intro h'
      simp [ht, Pc.reclaiming]
    · trivial
  · exact hstay _ (fun _ => rfl) (fun _ => rfl) (fun _ => rfl) trivial

theorem Inv.derefTest {gr : Genref} (ht : s.pc t = .derefTest h gr wait) : Inv cfg (s.derefTest t h gr wait) := by
  have hgr : gr.gen = h.gen ∧ gr.rc ≠ 0 := by simpa only [ht, PcOk] using hI.pcOk t
  obtain ⟨hgen, hpos⟩ := hI.of_refs_pc (t := t) (h := h) (by simp [ht, Pc.refs])
  unfold State.derefTest
  rw [if_neg (by push Not; exact hgr)]
  by_cases heq : (s.slot h.idx).genref = gr
  · rw [if_pos heq]
    have hrc_lt := hI.table.rc_lt h.idx
    rw [heq] at hrc_lt
    apply hI.setRc hgen hpos
    · omega
    · intro h'
      split_ifs with hz hh hh
      · subst hh
        simp only [ht, Pc.refs, heq]
        split_ifs <;> omega
      · simp [ht, Pc.refs, Ne.symm hh]
      · subst hh
        rw [derefDone_refs]
        simp only [ht, Pc.refs, heq]
        split_ifs <;> omega
      · rw [derefDone_refs]
        simp [ht, Pc.refs, Ne.symm hh]
    · intro j
      refine ⟨by simp [ht, Pc.excl], ?_⟩
      split_ifs with hz hj hj
      · simp [Pc.excl, hj.1]
      · have : h.idx ≠ j := fun hc => hj ⟨hc.symm, hz⟩
        simp [Pc.excl, this]
      · exact absurd hj.2 hz
      · simp
    · intro h'
      refine ⟨by simp [ht, Pc.reclaiming], ?_⟩
      split_ifs with hz hj hj
      · simp [Pc.reclaiming, hj.1]
      · have : h ≠ h' := fun hc => hj ⟨hc.symm, hz⟩
        simp [Pc.reclaiming, this]
      · exact absurd hj.2 hz
      · simp
    · split_ifs with hz
      · have hlive := hI.table.live h.idx hpos
        rw [hgen] at hlive
        simpa [PcOk, State.setGenref, Carries] using hlive
      · cases wait <;> trivial
  · rw [if_neg heq]
    apply hI.goto s.held s.owner
    · intro h'
      simp [ht, Pc.refs, outside]
    · intro i
      simp [ht, Pc.excl]
    · intro h'
      simp [ht, Pc.reclaiming]
    · exact ⟨hgen, by omega⟩

omit [DecidableEq T] in
theorem Inv.lookup_of_refs_pc (ht : (s.pc t).refs h = 1) :
    h ≠ handleNull ∧ s.lookup cfg h.idx = some (s.slot h.idx) := by
  obtain ⟨-, hpos⟩ := hI.of_refs_pc ht
  have hsum := hI.excl h.idx
  have hall := Finset.sum_nonneg fun t (_ : t ∈ Finset.univ) => Pc.excl_nonneg h.idx (s.pc t)
  rw [unheld, Genref.live, if_pos hpos, inTable] at hsum
  split_ifs at hsum with htable
  · refine ⟨fun hc => htable.1 (by rw [hc]; rfl), ?_⟩
    rw [State.lookup, if_neg]
    rw [not_le]
    exact Nat.div_lt_of_lt_mul (by rw [Nat.mul_comm]; exact htable.2)
  · omega

theorem Inv.move (hrefs : ∀ h, c.refs h = (s.pc t).refs h) (hexcl : ∀ i, c.excl i = (s.pc t).excl i)
    (hrec : ∀ h, c.reclaiming h = (s.pc t).reclaiming h) (hok : PcOk s.slot s.issued c) :
    Inv cfg (s.goto t c) := by
  apply hI.goto s.held s.owner _ hexcl hrec hok
  intro h
  rw [hrefs, outside]

theorem Inv.next (hC : InRange s (.step t)) (h : HandleTable.next cfg s t = some u) : Inv cfg u := by
  unfold HandleTable.next at h
  cases hpc : s.pc t with
  | idle => simp [hpc] at h
  | regGot idx p fn =>
    simp only [hpc, Option.some.injEq] at h
    subst h
    apply hI.move
    · simp [hpc, Pc.refs]
    · simp [hpc, Pc.excl]
    · simp [hpc, Pc.reclaiming]
    · rfl
  | regGen idx gen p fn =>
    simp only [hpc, Option.some.injEq] at h
    subst h
    have hok : gen = (s.slot idx).genref.gen := by simpa only [hpc, PcOk] using hI.pcOk t
    apply hI.setSlot
    · simp [hpc, Pc.excl]
    · rfl
    · simp [hpc, Pc.refs]
    · simp [hpc, Pc.excl]
    · simp [hpc, Pc.reclaiming]
    · simp [PcOk, hok]
  | regSet idx gen p fn =>
    simp only [hpc, Option.some.injEq] at h
    subst h
    exact hI.issue hpc
  | pinLoad h' =>
    -- the three outcomes of the load hold nothing
    have hmove : ∀ c : Pc α φ, (∀ h', c.refs h' = 0) → (∀ i, c.excl i = 0) →
        (∀ h', c.reclaiming h' = 0) → PcOk s.slot s.issued c → Inv cfg (s.goto t c) := by
      intro c h1 h2 h3 hok
      apply hI.move _ _ _ hok
      · simpa [hpc, Pc.refs] using h1
      · simpa [hpc, Pc.excl] using h2
      · simpa [hpc, Pc.reclaiming] using h3
    simp only [hpc] at h
    split_ifs at h with hnull
    · cases h
      exact hmove _ (fun _ => rfl) (fun _ => rfl) (fun _ => rfl) trivial
    · split at h <;> cases h
      · exact hmove _ (fun _ => rfl) (fun _ => rfl) (fun _ => rfl) trivial
      · exact hmove _ (fun _ => rfl) (fun _ => rfl) (fun _ => rfl) trivial
  | pinTest h' gr =>
    simp only [hpc, Option.some.injEq] at h
    subst h
    exact hI.pinTest hpc (by simpa only [InRange, hpc] using hC)
  | pinRead h' =>
    simp only [hpc, Option.some.injEq] at h
    subst h
    obtain ⟨hgen, hpos⟩ := hI.of_refs_pc (t := t) (h := h') (by simp [hpc, Pc.refs])
    obtain ⟨p, fn, hissued, hptr, -⟩ := hI.table.live h'.idx hpos
    rw [hgen] at hissued
    rw [hptr]
    apply hI.move
    · simp [hpc, Pc.refs]
    · simp [hpc, Pc.excl]
    · simp [hpc, Pc.reclaiming]
    · exact ⟨fn, hissued⟩
  | pinDone h' r =>
    cases r with
    | none =>
      simp only [hpc, Option.some.injEq] at h
      subst h
      apply hI.move
      · simp [hpc, Pc.refs]
      · simp [hpc, Pc.excl]
      · simp [hpc, Pc.reclaiming]
      · trivial
    | some p =>
      simp only [hpc, Option.some.injEq] at h
      subst h
      apply hI.goto
      · intro h''
        by_cases hh : h'' = h'
        · subst hh
          simp [hpc, Pc.refs, outside]
          omega
        · simp [hpc, Pc.refs, outside, update_of_ne hh, Ne.symm hh]
      · simp [hpc, Pc.excl]
      · simp [hpc, Pc.reclaiming]
      · trivial
  | derefLoad h' wait =>
    have href : (s.pc t).refs h' = 1 := by simp [hpc, Pc.refs]
    obtain ⟨hnull, hlookup⟩ := hI.lookup_of_refs_pc href
    simp only [hpc, hlookup, if_neg hnull, Option.some.injEq] at h
    subst h
    apply hI.move
    · simp [hpc, Pc.refs]
    · simp [hpc, Pc.excl]
    · simp [hpc, Pc.reclaiming]
    · obtain ⟨hgen, hpos⟩ := hI.of_refs_pc href
      exact ⟨hgen, by omega⟩
  | derefTest h' gr wait =>
    simp only [hpc, Option.some.injEq] at h
    subst h
    exact hI.derefTest hpc
  | recRead h' wait =>
    simp only [hpc, Option.some.injEq] at h
    subst h
    obtain ⟨hgen, p, fn, hissued, hptr, hfn⟩ : (s.slot h'.idx).genref.gen = h'.gen ∧ _ := by
      simpa only [hpc, PcOk] using hI.pcOk t
    apply hI.setSlot
    · simp [hpc, Pc.excl]
    · rfl
    · simp [hpc, Pc.refs]
    · simp [hpc, Pc.excl]
    · simp [hpc, Pc.reclaiming]
    · refine ⟨by simpa using hgen, p, ?_, hptr⟩
      rw [hfn, hissued]
  | recStore h' p fn wait =>
    simp only [hpc, Option.some.injEq] at h
    subst h
    exact hI.bumpGen hpc (by simpa only [InRange, hpc] using hC)
  | recFree h' p fn wait =>
    simp only [hpc, Option.some.injEq] at h
    subst h
    exact hI.finalize hpc
  | recPush h' wait =>
    simp only [hpc, Option.some.injEq] at h
    subst h
    exact hI.push hpc
  | spin h' =>
    simp only [hpc] at h
    split_ifs at h <;> cases h
    · exact hI
    · apply hI.move
      · simp [hpc, Pc.refs]
      · simp [hpc, Pc.excl]
      · simp [hpc, Pc.reclaiming]
      · trivial

theorem Inv.step {a : Action α φ T} (hC : InRange s a) (h : HandleTable.step cfg s a = some u) : Inv cfg u := by
  cases a with
  | register t p fn callocOk =>
    simp only [HandleTable.step] at h
    split at h
    · rename_i hpc
      exact hI.takeSlot hpc h
    · cases h
  | pin t h' =>
    simp only [HandleTable.step] at h
    split at h
    · rename_i hpc
      cases h
      apply hI.move
      · simp [hpc, Pc.refs]
      · simp [hpc, Pc.excl]
      · simp [hpc, Pc.reclaiming]
      · trivial
    · cases h
  | unpin t h' =>
    simp only [HandleTable.step] at h
    split at h
    · rename_i hpc
      split_ifs at h with hheld
      cases h
      apply hI.goto
      · intro h''
        by_cases hh : h'' = h'
        · subst hh
          simp [hpc, Pc.refs, outside]
          omega
        · simp [hpc, Pc.refs, outside, update_of_ne hh, Ne.symm hh]
      · simp [hpc, Pc.excl]
      · simp [hpc, Pc.reclaiming]
      · trivial
    · cases h
  | release t h' wait =>
    simp only [HandleTable.step] at h
    split at h
    · rename_i hpc
      split_ifs at h with howner
      cases h
      apply hI.goto
      · intro h''
        by_cases hh : h'' = h'
        · subst hh
          simp [hpc, Pc.refs, outside, howner]
        · simp [hpc, Pc.refs, outside, update_of_ne hh, Ne.symm hh]
      · simp [hpc, Pc.excl]
      · simp [hpc, Pc.reclaiming]
      · trivial
    · cases h
  | step t => exact hI.next hC h

end

omit [DecidableEq T] in
theorem Inv.init (h : Init s) : Inv cfg s := by
  refine ⟨fun h' => ?_, fun i => ?_, fun h' => ?_, fun t => ?_, ?_⟩
  · simp [h.pc, h.held, h.owner, h.slot, Pc.refs, outside, count, Genref.count]
  · simp [h.pc, h.free, h.nsegs, h.slot, Pc.excl, unheld, inTable, Genref.live]
  · simp [h.pc, h.finalized, h.issued, h.slot, Pc.reclaiming, unreclaimed, registered, Genref.liveIn]
  · rw [h.pc]
    trivial
  · constructor <;> simp [h.slot, h.issued, h.finalized, h.reclaims, h.nsegs]

theorem inv_of_reachable (h : (handleTable α φ T cfg).ReachableWith InRange s) : Inv cfg s :=
  h.invariant (fun _ hs => Inv.init hs) fun _ _ _ hI hC ha => hI.step hC ha

end Runloom.HandleTable
