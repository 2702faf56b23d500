import Mathlib.Data.Fintype.Basic
import Runloom.Parker.Model

/-!
# Where the wake bytes go

A waker first learns of a parker (a job, a record with its flag still set) and writes to it later.  In between the
waiting call may see its result without the byte, and release the parker.
-/

namespace Runloom.Parker

open Transition State List

variable {W S : Type*}

/-! ## Who is about to be written to -/

def WakerPc.target : WakerPc → Option ℕ
  | .run p => some p
  | .setDone p => some p
  | .unpark p => some p
  | _ => none

/-- Every parker that somebody is still going to write to satisfies `P`. -/
def State.ForallOwed (s : State W S) (P : ℕ → Prop) : Prop :=
  (∀ shard, ∀ p ∈ s.jobs shard, P p) ∧ ∀ k, ∀ p ∈ (s.waker k).target, P p

instance [Fintype W] [Fintype S] (s : State W S) (P : ℕ → Prop) [DecidablePred P] : Decidable (s.ForallOwed P) :=
  inferInstanceAs (Decidable (_ ∧ _))

/-- No release closes a write descriptor, and no new parker takes one, while somebody is still going to write to its
parker. -/
def Undisturbed (s : State W S) : Action W S → Prop
  | .next i =>
    (s.pc i = .closeW → s.ForallOwed fun p => p ≠ i) ∧
      (s.pc i = .popPool → ∀ pair ∈ s.pool.getLast?, s.ForallOwed fun p => s.wfd p ≠ pair.2)
  | _ => True

instance [Fintype W] [Fintype S] (s : State W S) (a : Action W S) : Decidable (Undisturbed s a) :=
  match a with
  | .next _ => inferInstanceAs (Decidable (_ ∧ _))
  | .call _ | .pipe .. | .enqueue .. | .expire _ | .raise _ | .takeJob .. | .release .. | .put ..
  | .wakerNext _ | .openFd _ | .closeFd _ => .isTrue trivial

/-- The write end of the parker's own pipe, with the parker or in the pool. -/
def Use.sound (u : Use) (p : ℕ) : Prop :=
  u = .write (.parker p) ∨ u = .write .pool

instance (u : Use) (p : ℕ) : Decidable (u.sound p) :=
  inferInstanceAs (Decidable (_ ∨ _))

/-! ## Reading the counters -/

def Pc.holdsR : Pc → Bool
  | .idle => false
  | .lockFast => false
  | .fastPop => false
  | .popPool => false
  | .pipe => false
  | .unlock pooled => !pooled
  | .closeW => false
  | .done => false
  | _ => true

def Pc.holdsW (pc : Pc) : Bool :=
  pc.holdsR || pc == .closeW

def Pc.registered : Pc → Bool
  | .checkGranted => true
  | .lockDeadline => true
  | .parkGranted => true
  | .drain => true
  | .tryLock => true
  | .pooling => true
  | .unlock _ => true
  | .closeR => true
  | .closeW => true
  | .done => true
  | .leaked => true
  | _ => false

def Pc.awaitsLock : Pc → Bool
  | .checkGranted => true
  | .lockDeadline => true
  | .parkGranted => true
  | .leaked => true
  | _ => false

/-- The call's record is in the queue's deque, or was, and still active. -/
def Pc.awaitsItem : Pc → Bool
  | .firstPop => true
  | .loopPop => true
  | .getDeadline => true
  | .checkRegistered => true
  | .reRegister => true
  | .rePop => true
  | .parkItem => true
  | .deactivate => true
  | .leaked => true
  | _ => false

theorem Pc.holdsW_of_awaitsLock {pc : Pc} (h : pc.awaitsLock = true) : pc.holdsW = true := by
  cases pc <;> first | rfl | cases h

theorem Pc.holdsW_of_awaitsItem {pc : Pc} (h : pc.awaitsItem = true) : pc.holdsW = true := by
  cases pc <;> first | rfl | cases h

def Call.isGet : Call → Bool
  | .get .. => true
  | _ => false

def Call.locks (m : ℕ) : Call → Bool
  | .acquire m' _ _ => m' = m
  | _ => false

/-! ## The invariant -/

variable {calls : ℕ → Call}

structure Inv (calls : ℕ → Call) (s : State W S) : Prop where
  rfd : ∀ i, (s.pc i).holdsR = true → s.use (s.rfd i) = .read (.parker i)
  wfd : ∀ i, (s.pc i).holdsW = true → s.use (s.wfd i) = .write (.parker i)
  pool : ∀ p ∈ s.pool, s.use p.1 = .read .pool ∧ s.use p.2 = .write .pool
  poolR : (s.pool.map Prod.fst).Nodup
  poolW : (s.pool.map Prod.snd).Nodup
  owed : s.ForallOwed fun p => (s.use (s.wfd p)).sound p
  lockWaiters : ∀ m, ∀ i ∈ s.lockWaiters m,
    (calls i).locks m = true ∧ (s.pc i).registered = true ∧ s.granted i = false ∧
      (s.active i = true → (s.pc i).awaitsLock = true)
  lockNodup : ∀ m, (s.lockWaiters m).Nodup
  itemWaiters : ∀ q, ∀ i ∈ s.itemWaiters q, (calls i).isGet = true
  readActive : ∀ k q i, s.waker k = .readActive q i → (calls i).isGet = true
  getActive : ∀ i, (calls i).isGet = true → s.active i = true → (s.pc i).awaitsItem = true
  bytes : ∀ b ∈ s.bytes, b.2.sound b.1

variable {s u : State W S} {i : ℕ} {c : Pc}

theorem State.ForallOwed.mono {P Q : ℕ → Prop} (h : s.ForallOwed P) (hjobs : u.jobs = s.jobs)
    (hwaker : u.waker = s.waker) (hPQ : ∀ p, P p → Q p) : u.ForallOwed Q := by
  constructor
  · intro shard p hp
    rw [hjobs] at hp
    exact hPQ p (h.1 shard p hp)
  · intro k p hp
    rw [hwaker] at hp
    exact hPQ p (h.2 k p hp)

theorem State.ForallOwed.and {P Q : ℕ → Prop} (hP : s.ForallOwed P) (hQ : s.ForallOwed Q) :
    s.ForallOwed fun p => P p ∧ Q p :=
  ⟨fun shard p hp => ⟨hP.1 shard p hp, hQ.1 shard p hp⟩, fun k p hp => ⟨hP.2 k p hp, hQ.2 k p hp⟩⟩

theorem Inv.of_init (h : Init s) : Inv calls s where
  rfd i hi := by
    rw [h.pc] at hi
    cases hi
  wfd i hi := by
    rw [h.pc] at hi
    cases hi
  pool p hp := by
    rw [h.pool] at hp
    cases hp
  poolR := by
    rw [h.pool]
    exact nodup_nil
  poolW := by
    rw [h.pool]
    exact nodup_nil
  owed := by
    constructor
    · intro shard p hp
      rw [h.jobs] at hp
      cases hp
    · intro k p hp
      rw [h.waker] at hp
      cases hp
  lockWaiters m i hi := by
    rw [h.lockWaiters] at hi
    cases hi
  lockNodup m := by
    rw [h.lockWaiters]
    exact nodup_nil
  itemWaiters q i hi := by
    rw [h.itemWaiters] at hi
    cases hi
  readActive k q i hk := by
    rw [h.waker] at hk
    cases hk
  getActive i _ hi := by
    rw [h.active] at hi
    cases hi
  bytes b hb := by
    rw [h.bytes] at hb
    cases hb

theorem Inv.congr (hI : Inv calls s) (poolLock : Bool) (locked : ℕ → Bool) (items : ℕ → ℕ) (finished : ℕ → Bool) :
    Inv calls { s with poolLock := poolLock, locked := locked, items := items,
                       finished := finished } :=
  { hI with }

/-! ## A call moves on -/

theorem Inv.goto (hI : Inv calls s) (hR : c.holdsR = true → (s.pc i).holdsR = true)
    (hW : c.holdsW = true → (s.pc i).holdsW = true)
    (hreg : (s.pc i).registered = true → c.registered = true)
    (hlock : s.active i = true → (s.pc i).awaitsLock = true → c.awaitsLock = true ∨ s.granted i = true)
    (hitem : s.active i = true → (s.pc i).awaitsItem = true → c.awaitsItem = true) :
    Inv calls (s.goto i c) := by
  have hpc : ∀ j, j ≠ i → (s.goto i c).pc j = s.pc j := fun j hj => update_of_ne hj ..
  have hpci : (s.goto i c).pc i = c := update_self ..
  constructor
  · intro j hj
    by_cases hji : j = i
    · subst hji
      rw [hpci] at hj
      exact hI.rfd j (hR hj)
    · rw [hpc j hji] at hj
      exact hI.rfd j hj
  · intro j hj
    by_cases hji : j = i
    · subst hji
      rw [hpci] at hj
      exact hI.wfd j (hW hj)
    · rw [hpc j hji] at hj
      exact hI.wfd j hj
  · exact hI.pool
  · exact hI.poolR
  · exact hI.poolW
  · exact hI.owed
  · intro m j hj
    obtain ⟨hm, hjreg, hgrant, hact⟩ := hI.lockWaiters m j hj
    by_cases hji : j = i
    · subst hji
      rw [hpci]
      refine ⟨hm, hreg hjreg, hgrant, ?_⟩
      intro ha
      rcases hlock ha (hact ha) with h | h
      · exact h
      · rw [hgrant] at h
        cases h
    · rw [hpc j hji]
      exact ⟨hm, hjreg, hgrant, hact⟩
  · exact hI.lockNodup
  · exact hI.itemWaiters
  · exact hI.readActive
  · intro j hget ha
    by_cases hji : j = i
    · subst hji
      rw [hpci]
      exact hitem ha (hI.getActive j hget ha)
    · rw [hpc j hji]
      exact hI.getActive j hget ha
  · exact hI.bytes

theorem Inv.advance (hI : Inv calls s) {pc : Pc} (hpc : s.pc i = pc)
    (hR : c.holdsR = true → pc.holdsR = true) (hW : c.holdsW = true → pc.holdsW = true)
    (hreg : pc.registered = true → c.registered = true)
    (hlock : pc.awaitsLock = true → c.awaitsLock = true)
    (hitem : pc.awaitsItem = true → c.awaitsItem = true) : Inv calls (s.goto i c) := by
  subst hpc
  exact hI.goto hR hW hreg (fun _ h => .inl (hlock h)) (fun _ h => hitem h)

/-! ## Descriptors change hands -/

theorem Inv.setUse_unrelated (hI : Inv calls s) {n : ℕ} {v : Use}
    (hn : ∀ o, s.use n ≠ .read o ∧ s.use n ≠ .write o) : Inv calls (s.setUse n v) := by
  have hsame : ∀ {k o}, s.use k = .read o ∨ s.use k = .write o → (s.setUse n v).use k = s.use k := by
    intro k o hk
    apply update_of_ne
    rintro rfl
    rcases hk with hk | hk
    · exact (hn o).1 hk
    · exact (hn o).2 hk
  constructor
  · intro i hi
    exact (hsame (.inl (hI.rfd i hi))).trans (hI.rfd i hi)
  · intro i hi
    exact (hsame (.inr (hI.wfd i hi))).trans (hI.wfd i hi)
  · intro p hp
    obtain ⟨hr, hw⟩ := hI.pool p hp
    exact ⟨(hsame (.inl hr)).trans hr, (hsame (.inr hw)).trans hw⟩
  · exact hI.poolR
  · exact hI.poolW
  · apply hI.owed.mono rfl rfl
    intro p hp
    show ((s.setUse n v).use (s.wfd p)).sound p
    rcases hp with hp | hp
    · exact .inl ((hsame (.inr hp)).trans hp)
    · exact .inr ((hsame (.inr hp)).trans hp)
  · exact hI.lockWaiters
  · exact hI.lockNodup
  · exact hI.itemWaiters
  · exact hI.readActive
  · exact hI.getActive
  · exact hI.bytes

/-- A pair before a parker takes it: new, or just out of the pool. -/
structure Takeable (s : State W S) (pool : List (ℕ × ℕ)) (r w : ℕ) : Prop where
  ne : r ≠ w
  read : s.use r = .free ∨ s.use r = .read .pool
  write : s.use w = .free ∨ s.use w = .write .pool
  sub : pool.Sublist s.pool
  notR : ∀ p ∈ pool, p.1 ≠ r
  notW : ∀ p ∈ pool, p.2 ≠ w
  owed : s.ForallOwed fun p => s.wfd p ≠ w

section

variable (hI : Inv calls s)
include hI

theorem Inv.take {pool : List (ℕ × ℕ)} {r w : ℕ} (ht : Takeable s pool r w)
    (hpc : s.pc i = .popPool ∨ s.pc i = .pipe) (cl : Call) :
    Inv calls ((({ s with pool := pool }.own r w (.parker i)).setFds i r w).goto i cl.afterNew) := by
  have hsame : ∀ {k}, k ≠ r → k ≠ w →
      (({ s with pool := pool } : State W S).own r w (.parker i)).use k = s.use k := by
    intro k hr hw
    exact (update_of_ne hw ..).trans (update_of_ne hr ..)
  have hnew : ∀ {k o}, (s.use k = .read o ∨ s.use k = .write o) → o ≠ .pool → k ≠ r ∧ k ≠ w := by
    intro k o hk ho
    constructor
    · rintro rfl
      rcases ht.read with h | h <;> rw [h] at hk <;> simp_all
    · rintro rfl
      rcases ht.write with h | h <;> rw [h] at hk <;> simp_all
  have huser : (({ s with pool := pool } : State W S).own r w (.parker i)).use r = .read (.parker i) :=
    (update_of_ne ht.ne ..).trans (update_self ..)
  have husew : (({ s with pool := pool } : State W S).own r w (.parker i)).use w = .write (.parker i) :=
    update_self ..
  have hbefore : (s.pc i).registered = false ∧ (s.pc i).awaitsItem = false := by
    rcases hpc with h | h <;> rw [h] <;> exact ⟨rfl, rfl⟩
  constructor
  · intro j hj
    by_cases hji : j = i
    · subst hji
      show _ = _
      simp only [State.goto, setFds, update_self]
      exact huser
    · simp only [State.goto, setFds, update_of_ne hji] at hj ⊢
      have hold := hI.rfd j hj
      obtain ⟨hr, hw⟩ := hnew (.inl hold) nofun
      exact (hsame hr hw).trans hold
  · intro j hj
    by_cases hji : j = i
    · subst hji
      simp only [State.goto, setFds, update_self]
      exact husew
    · simp only [State.goto, setFds, update_of_ne hji] at hj ⊢
      have hold := hI.wfd j hj
      obtain ⟨hr, hw⟩ := hnew (.inr hold) nofun
      exact (hsame hr hw).trans hold
  · intro p hp
    have hmem : p ∈ s.pool := ht.sub.subset hp
    obtain ⟨hold1, hold2⟩ := hI.pool p hmem
    constructor
    · refine (hsame (ht.notR p hp) ?_).trans hold1
      intro h
      rw [h] at hold1
      rcases ht.write with h | h <;> rw [h] at hold1 <;> cases hold1
    · refine (hsame ?_ (ht.notW p hp)).trans hold2
      intro h
      rw [h] at hold2
      rcases ht.read with h | h <;> rw [h] at hold2 <;> cases hold2
  · exact (ht.sub.map _).nodup hI.poolR
  · exact (ht.sub.map _).nodup hI.poolW
  · -- whoever is owed a byte has another pair, unless it is the new parker itself
    apply (hI.owed.and ht.owed).mono rfl rfl
    rintro p ⟨hsound, hne⟩
    by_cases hpi : p = i
    · subst hpi
      simp only [State.goto, setFds, update_self]
      exact .inl husew
    · simp only [State.goto, setFds, update_of_ne hpi]
      have hr : s.wfd p ≠ r := by
        intro h
        rw [h] at hsound
        rcases ht.read with h | h <;> rw [h] at hsound <;> rcases hsound with h | h <;> cases h
      rcases hsound with h | h
      · exact .inl ((hsame hr hne).trans h)
      · exact .inr ((hsame hr hne).trans h)
  · intro m j hj
    obtain ⟨hm, hreg, hrest⟩ := hI.lockWaiters m j hj
    by_cases hji : j = i
    · subst hji
      rw [hbefore.1] at hreg
      cases hreg
    · simp only [State.goto, update_of_ne hji]
      exact ⟨hm, hreg, hrest⟩
  · exact hI.lockNodup
  · exact hI.itemWaiters
  · exact hI.readActive
  · intro j hget ha
    have hold := hI.getActive j hget ha
    by_cases hji : j = i
    · subst hji
      rw [hbefore.2] at hold
      cases hold
    · simp only [State.goto, update_of_ne hji]
      exact hold
  · exact hI.bytes

/-- `release` appends the pair to the pool. -/
theorem Inv.give (hpc : s.pc i = .pooling) :
    Inv calls (({ s with pool := s.pool ++ [(s.rfd i, s.wfd i)] }.own (s.rfd i) (s.wfd i)
      .pool).goto i (.unlock true)) := by
  have hr : s.use (s.rfd i) = .read (.parker i) := hI.rfd i (by rw [hpc]; rfl)
  have hw : s.use (s.wfd i) = .write (.parker i) := hI.wfd i (by rw [hpc]; rfl)
  have hrw : s.rfd i ≠ s.wfd i := by
    intro h
    rw [h, hw] at hr
    cases hr
  have hmove : Inv calls (s.goto i (.unlock true)) :=
    hI.advance hpc nofun nofun (fun _ => rfl) nofun nofun
  have hsame : ∀ {k}, k ≠ s.rfd i → k ≠ s.wfd i →
      (({ s with pool := s.pool ++ [(s.rfd i, s.wfd i)] } : State W S).own (s.rfd i) (s.wfd i)
        .pool).use k = s.use k := by
    intro k h1 h2
    exact (update_of_ne h2 ..).trans (update_of_ne h1 ..)
  have hother : ∀ {k j}, (s.use k = .read (.parker j) ∨ s.use k = .write (.parker j)) → j ≠ i →
      k ≠ s.rfd i ∧ k ≠ s.wfd i := by
    intro k j hk hj
    constructor
    · rintro rfl
      rw [hr] at hk
      simp_all
    · rintro rfl
      rw [hw] at hk
      simp_all
  have huser : (({ s with pool := s.pool ++ [(s.rfd i, s.wfd i)] } : State W S).own (s.rfd i)
      (s.wfd i) .pool).use (s.rfd i) = .read .pool :=
    (update_of_ne hrw ..).trans (update_self ..)
  have husew : (({ s with pool := s.pool ++ [(s.rfd i, s.wfd i)] } : State W S).own (s.rfd i)
      (s.wfd i) .pool).use (s.wfd i) = .write .pool :=
    update_self ..
  constructor
  · intro j hj
    by_cases hji : j = i
    · subst hji
      simp only [State.goto, update_self] at hj
      cases hj
    · simp only [State.goto, update_of_ne hji] at hj
      have hold := hI.rfd j hj
      obtain ⟨h1, h2⟩ := hother (.inl hold) hji
      exact (hsame h1 h2).trans hold
  · intro j hj
    by_cases hji : j = i
    · subst hji
      simp only [State.goto, update_self] at hj
      cases hj
    · simp only [State.goto, update_of_ne hji] at hj
      have hold := hI.wfd j hj
      obtain ⟨h1, h2⟩ := hother (.inr hold) hji
      exact (hsame h1 h2).trans hold
  · intro p hp
    rcases mem_append.mp hp with hp | hp
    · obtain ⟨hold1, hold2⟩ := hI.pool p hp
      constructor
      · refine (hsame ?_ ?_).trans hold1
        · intro h
          rw [h, hr] at hold1
          cases hold1
        · intro h
          rw [h, hw] at hold1
          cases hold1
      · refine (hsame ?_ ?_).trans hold2
        · intro h
          rw [h, hr] at hold2
          cases hold2
        · intro h
          rw [h, hw] at hold2
          cases hold2
    · cases mem_singleton.mp hp
      exact ⟨huser, husew⟩
  · show ((s.pool ++ [(s.rfd i, s.wfd i)]).map Prod.fst).Nodup
    rw [map_append, map_singleton, nodup_append_comm, singleton_append, nodup_cons]
    refine ⟨?_, hI.poolR⟩
    intro hmem
    obtain ⟨p, hp, hfst⟩ := mem_map.mp hmem
    have hold := (hI.pool p hp).1
    rw [hfst, hr] at hold
    cases hold
  · show ((s.pool ++ [(s.rfd i, s.wfd i)]).map Prod.snd).Nodup
    rw [map_append, map_singleton, nodup_append_comm, singleton_append, nodup_cons]
    refine ⟨?_, hI.poolW⟩
    intro hmem
    obtain ⟨p, hp, hsnd⟩ := mem_map.mp hmem
    have hold := (hI.pool p hp).2
    rw [hsnd, hw] at hold
    cases hold
  · apply hI.owed.mono rfl rfl
    intro p hp
    by_cases hpw : s.wfd p = s.wfd i
    · refine .inr ?_
      show (State.own _ _ _ _).use (s.wfd p) = _
      rw [hpw]
      exact husew
    · have hpr : s.wfd p ≠ s.rfd i := by
        intro h
        rw [h, hr] at hp
        rcases hp with h | h <;> cases h
      rcases hp with h | h
      · exact .inl ((hsame hpr hpw).trans h)
      · exact .inr ((hsame hpr hpw).trans h)
  · exact hmove.lockWaiters
  · exact hI.lockNodup
  · exact hI.itemWaiters
  · exact hI.readActive
  · exact hmove.getActive
  · exact hI.bytes

theorem Inv.close {n : ℕ} (hmove : Inv calls (s.goto i c))
    (hn : s.use n = .read (.parker i) ∨ s.use n = .write (.parker i))
    (hR : c.holdsR = true → s.rfd i ≠ n) (hW : c.holdsW = true → s.wfd i ≠ n)
    (howed : s.ForallOwed fun p => s.wfd p ≠ n) :
    Inv calls ((s.setUse n .free).goto i c) := by
  have hsame : ∀ {k}, k ≠ n → (s.setUse n .free).use k = s.use k :=
    fun hk => update_of_ne hk ..
  have hother : ∀ {k v}, s.use k = v → v ≠ .read (.parker i) → v ≠ .write (.parker i) → k ≠ n := by
    rintro k v hk h1 h2 rfl
    rcases hn with h | h
    · exact h1 (hk.symm.trans h)
    · exact h2 (hk.symm.trans h)
  constructor
  · intro j hj
    have hold : s.use (s.rfd j) = _ := hmove.rfd j hj
    refine (hsame ?_).trans hold
    by_cases hji : j = i
    · subst hji
      simp only [State.goto, update_self] at hj
      exact hR hj
    · apply hother hold
      · simpa using hji
      · nofun
  · intro j hj
    have hold : s.use (s.wfd j) = _ := hmove.wfd j hj
    refine (hsame ?_).trans hold
    by_cases hji : j = i
    · subst hji
      simp only [State.goto, update_self] at hj
      exact hW hj
    · apply hother hold
      · nofun
      · simpa using hji
  · intro p hp
    obtain ⟨hold1, hold2⟩ := hI.pool p hp
    exact ⟨(hsame (hother hold1 nofun nofun)).trans hold1, (hsame (hother hold2 nofun nofun)).trans hold2⟩
  · exact hI.poolR
  · exact hI.poolW
  · apply (hI.owed.and howed).mono rfl rfl
    rintro p ⟨hsound | hsound, hne⟩
    · exact .inl ((hsame hne).trans hsound)
    · exact .inr ((hsame hne).trans hsound)
  · exact hmove.lockWaiters
  · exact hI.lockNodup
  · exact hI.itemWaiters
  · exact hI.readActive
  · exact hmove.getActive
  · exact hI.bytes

theorem Inv.closeR (hpc : s.pc i = .closeR) : Inv calls ((s.setUse (s.rfd i) .free).goto i .closeW) := by
  have hr : s.use (s.rfd i) = .read (.parker i) := hI.rfd i (by rw [hpc]; rfl)
  have hw : s.use (s.wfd i) = .write (.parker i) := hI.wfd i (by rw [hpc]; rfl)
  have hmove : Inv calls (s.goto i .closeW) :=
    hI.advance hpc nofun (fun _ => rfl) (fun _ => rfl) nofun nofun
  apply hI.close hmove (.inl hr) (c := .closeW) nofun
  · intro _ h
    rw [← h, hw] at hr
    cases hr
  · apply hI.owed.mono rfl rfl
    intro p hp h
    rw [h, hr] at hp
    rcases hp with h | h <;> cases h

theorem Inv.closeW (hpc : s.pc i = .closeW) (hC : s.ForallOwed fun p => p ≠ i) :
    Inv calls ((s.setUse (s.wfd i) .free).goto i .done) := by
  have hw : s.use (s.wfd i) = .write (.parker i) := hI.wfd i (by rw [hpc]; rfl)
  have hmove : Inv calls (s.goto i .done) :=
    hI.advance hpc nofun nofun (fun _ => rfl) nofun nofun
  apply hI.close hmove (.inr hw) (c := .done) nofun nofun
  apply (hI.owed.and hC).mono rfl rfl
  rintro p ⟨hsound, hne⟩ h
  -- the number belongs to `i`, so only `i` could be owed a byte through it
  rw [h, hw] at hsound
  rcases hsound with h | h
  · cases h
    exact hne rfl
  · cases h

end

/-! ## Records -/

theorem Inv.registerLock (hI : Inv calls s) {m : ℕ} (hpc : s.pc i = .lockAgain) (hm : (calls i).locks m = true) :
    Inv calls ({ s with
      lockWaiters := update s.lockWaiters m (s.lockWaiters m ++ [i])
      active := update s.active i true
      granted := update s.granted i false }.goto i .checkGranted) := by
  have hmove : Inv calls (s.goto i .checkGranted) :=
    hI.advance hpc (fun _ => rfl) (fun _ => rfl) nofun nofun nofun
  have hfresh : ∀ m', i ∉ s.lockWaiters m' := by
    intro m' hmem
    have hreg := (hI.lockWaiters m' i hmem).2.1
    rw [hpc] at hreg
    cases hreg
  -- the old records are those of other calls
  have hold : ∀ m', ∀ j ∈ s.lockWaiters m', j ≠ i := by
    rintro m' j hj rfl
    exact hfresh m' hj
  refine { hmove with lockWaiters := ?_, lockNodup := ?_, getActive := ?_ }
  · intro m' j hj
    have hcase : j ∈ s.lockWaiters m' ∨ (j = i ∧ m' = m) := by
      by_cases hm' : m' = m
      · subst hm'
        simp only [State.goto, update_self, mem_append, mem_singleton] at hj
        exact hj.imp_right fun h => ⟨h, rfl⟩
      · simp only [State.goto, update_of_ne hm'] at hj
        exact .inl hj
    rcases hcase with hj | ⟨rfl, rfl⟩
    · have hji := hold m' j hj
      simp only [State.goto, update_of_ne hji]
      exact hI.lockWaiters m' j hj
    · simp only [State.goto, update_self]
      exact ⟨hm, rfl, trivial, fun _ => rfl⟩
  · intro m'
    by_cases hm' : m' = m
    · subst hm'
      simp only [State.goto, update_self]
      rw [nodup_append_comm, singleton_append, nodup_cons]
      exact ⟨hfresh m', hI.lockNodup m'⟩
    · simp only [State.goto, update_of_ne hm']
      exact hI.lockNodup m'
  · intro j hget ha
    have hji : j ≠ i := by
      rintro rfl
      cases hc : calls j <;> rw [hc] at hm hget
      · cases hget
      · cases hget
      · cases hm
    simp only [State.goto, update_of_ne hji] at ha ⊢
    exact hI.getActive j hget ha

theorem Inv.registerItem (hI : Inv calls s) {q : ℕ} {active : ℕ → Bool} (hget : (calls i).isGet = true)
    (hactive : ∀ j, j ≠ i → active j = s.active j) (hc : c.awaitsItem = true)
    (hmove : Inv calls (s.goto i c)) :
    Inv calls ({ s with
      itemWaiters := update s.itemWaiters q (s.itemWaiters q ++ [i])
      active := active }.goto i c) := by
  refine { hmove with lockWaiters := ?_, itemWaiters := ?_, getActive := ?_ }
  · intro m j hj
    have hji : j ≠ i := by
      rintro rfl
      have hm := (hI.lockWaiters m j hj).1
      cases hcall : calls j <;> rw [hcall] at hm hget
      · cases hm
      · cases hget
      · cases hm
    simp only [State.goto, update_of_ne hji, hactive j hji]
    exact hI.lockWaiters m j hj
  · intro q' j hj
    by_cases hq' : q' = q
    · subst hq'
      simp only [State.goto, update_self, mem_append, mem_singleton] at hj
      rcases hj with hj | rfl
      · exact hI.itemWaiters q' j hj
      · exact hget
    · simp only [State.goto, update_of_ne hq'] at hj
      exact hI.itemWaiters q' j hj
  · intro j hj ha
    by_cases hji : j = i
    · subst hji
      simp only [State.goto, update_self]
      exact hc
    · simp only [State.goto, update_of_ne hji, hactive j hji] at ha ⊢
      exact hI.getActive j hj ha

theorem Inv.deactivate (hI : Inv calls s) (hR : c.holdsR = true → (s.pc i).holdsR = true)
    (hW : c.holdsW = true → (s.pc i).holdsW = true)
    (hreg : (s.pc i).registered = true → c.registered = true) :
    Inv calls ({ s with active := update s.active i false }.goto i c) := by
  have hflag : Inv calls { s with active := update s.active i false } := by
    refine { hI with lockWaiters := ?_, getActive := ?_ }
    · intro m j hj
      obtain ⟨hm, hjreg, hgrant, hact⟩ := hI.lockWaiters m j hj
      refine ⟨hm, hjreg, hgrant, ?_⟩
      intro ha
      by_cases hji : j = i
      · subst hji
        simp only [update_self] at ha
        cases ha
      · simp only [update_of_ne hji] at ha
        exact hact ha
    · intro j hget ha
      by_cases hji : j = i
      · subst hji
        simp only [update_self] at ha
        cases ha
      · simp only [update_of_ne hji] at ha
        exact hI.getActive j hget ha
  have hoff : ({ s with active := update s.active i false } : State W S).active i = false :=
    update_self ..
  apply hflag.goto hR hW hreg
  · intro ha
    rw [hoff] at ha
    cases ha
  · intro ha
    rw [hoff] at ha
    cases ha

/-! ## Steps of a call -/

section calls

variable {m q : ℕ} {blocking timed : Bool}

theorem Inv.tryTake {taken busy : Pc} (ht : Inv calls (s.goto i taken))
    (hb : Inv calls (s.goto i busy)) : Inv calls (tryTake s i m taken busy) := by
  unfold Parker.tryTake
  split
  · exact hb
  · exact ht.congr _ _ _ _

theorem Inv.popItem {found empty : Pc} (hf : Inv calls (s.goto i found))
    (he : Inv calls (s.goto i empty)) : Inv calls (popItem s i q found empty) := by
  unfold Parker.popItem
  split
  · exact hf.congr _ _ _ _
  · exact he

theorem Inv.submitNext (hI : Inv calls s) (h : submitNext s i (s.pc i) = some u) : Inv calls u := by
  unfold Parker.submitNext at h
  split at h
  case h_1 hpc =>
    cases h
    split
    · exact hI.advance hpc (fun _ => rfl) (fun _ => rfl) (fun _ => rfl) nofun nofun
    · exact hI.advance hpc (fun _ => rfl) (fun _ => rfl) nofun nofun nofun
  case h_2 hpc =>
    cases h
    exact hI.advance hpc (fun _ => rfl) (fun _ => rfl) nofun nofun nofun
  case h_3 => cases h

theorem Inv.acquireNext (hI : Inv calls s) (hm : (calls i).locks m = true)
    (h : acquireNext s i m blocking timed (s.pc i) = some u) : Inv calls u := by
  unfold Parker.acquireNext at h
  split at h
  case h_1 hpc =>
    cases h
    apply Inv.tryTake
    · exact hI.advance hpc nofun nofun nofun nofun nofun
    · split <;> exact hI.advance hpc nofun nofun nofun nofun nofun
  case h_2 hpc =>
    cases h
    unfold lockAgain
    split
    · exact hI.registerLock hpc hm
    · have hmove : Inv calls (s.goto i .drain) :=
        hI.advance hpc (fun _ => rfl) (fun _ => rfl) nofun nofun nofun
      exact hmove.congr _ _ _ _
  case h_3 hpc =>
    cases h
    split
    · -- the hand-off flag was set by the release that took the record out
      rename_i hgranted
      apply hI.goto
      · rw [hpc]
        exact fun _ => rfl
      · rw [hpc]
        exact fun _ => rfl
      · exact fun _ => rfl
      · exact fun _ _ => .inr hgranted
      · rw [hpc]
        nofun
    · split <;> exact hI.advance hpc (fun _ => rfl) (fun _ => rfl) (fun _ => rfl) (fun _ => rfl) nofun
  case h_4 hpc =>
    cases h
    exact hI.advance hpc (fun _ => rfl) (fun _ => rfl) (fun _ => rfl) (fun _ => rfl) nofun
  case h_5 hpc =>
    cases h
    exact hI.advance hpc (fun _ => rfl) (fun _ => rfl) (fun _ => rfl) (fun _ => rfl) nofun
  case h_6 => cases h

theorem Pc.of_awaitsItem {pc : Pc} (h : pc.awaitsItem = true) (hne : pc ≠ .leaked) :
    pc.holdsR = true ∧ pc.registered = false ∧ pc.awaitsLock = false := by
  cases pc <;> first | exact ⟨rfl, rfl, rfl⟩ | exact absurd rfl hne | cases h

section

variable (hI : Inv calls s)
include hI

theorem Inv.awaitItem {pc : Pc} (hpc : s.pc i = pc) (hold : pc.awaitsItem = true)
    (hne : pc ≠ .leaked) (hc : c.awaitsItem = true) : Inv calls (s.goto i c) := by
  obtain ⟨hholds, hreg, hlock⟩ := Pc.of_awaitsItem hold hne
  apply hI.advance hpc
  · exact fun _ => hholds
  · exact fun _ => Pc.holdsW_of_awaitsItem hold
  · intro h
    rw [hreg] at h
    cases h
  · intro h
    rw [hlock] at h
    cases h
  · exact fun _ => hc

theorem Inv.getNext (hget : (calls i).isGet = true)
    (h : getNext s i q timed (s.pc i) = some u) : Inv calls u := by
  unfold Parker.getNext at h
  split at h
  case h_1 hpc =>
    cases h
    apply Inv.popItem
    · exact hI.advance hpc nofun nofun nofun nofun nofun
    · exact hI.advance hpc nofun nofun nofun nofun nofun
  case h_2 hpc =>
    cases h
    apply hI.registerItem hget (fun j hj => update_of_ne hj ..) rfl
    exact hI.advance hpc (fun _ => rfl) (fun _ => rfl) nofun nofun nofun
  case h_3 hpc =>
    cases h
    exact .popItem (hI.awaitItem hpc rfl nofun rfl) (hI.awaitItem hpc rfl nofun rfl)
  case h_4 hpc =>
    cases h
    apply Inv.popItem (hI.awaitItem hpc rfl nofun rfl)
    split <;> exact hI.awaitItem hpc rfl nofun rfl
  case h_5 hpc =>
    cases h
    exact hI.awaitItem hpc rfl nofun rfl
  case h_6 hpc =>
    cases h
    split <;> exact hI.awaitItem hpc rfl nofun rfl
  case h_7 hpc =>
    cases h
    exact hI.registerItem hget (fun _ _ => rfl) rfl (hI.awaitItem hpc rfl nofun rfl)
  case h_8 hpc =>
    cases h
    exact .popItem (hI.awaitItem hpc rfl nofun rfl) (hI.awaitItem hpc rfl nofun rfl)
  case h_9 hpc =>
    cases h
    exact hI.awaitItem hpc rfl nofun rfl
  case h_10 hpc =>
    cases h
    apply hI.deactivate
    · rw [hpc]
      exact fun _ => rfl
    · rw [hpc]
      exact fun _ => rfl
    · rw [hpc]
      nofun
  case h_11 hpc =>
    cases h
    have hmove : Inv calls (s.goto i .drain) :=
      hI.advance hpc (fun _ => rfl) (fun _ => rfl) nofun nofun nofun
    refine { hmove with itemWaiters := ?_ }
    intro q' j hj
    by_cases hq' : q' = q
    · subst hq'
      simp only [State.goto, update_self] at hj
      exact hI.itemWaiters q' j (mem_of_mem_erase hj)
    · simp only [State.goto, update_of_ne hq'] at hj
      exact hI.itemWaiters q' j hj
  case h_12 => cases h

theorem Inv.releaseNext (hC : s.pc i = .closeW → s.ForallOwed fun p => p ≠ i)
    (h : releaseNext s i (s.pc i) = some u) : Inv calls u := by
  unfold Parker.releaseNext at h
  split at h
  case h_1 hpc =>
    cases h
    exact hI.advance hpc (fun _ => rfl) (fun _ => rfl) (fun _ => rfl) nofun nofun
  case h_2 hpc =>
    cases h
    split
    · exact hI.advance hpc (fun _ => rfl) (fun _ => rfl) (fun _ => rfl) nofun nofun
    · have hmove : Inv calls (s.goto i .pooling) :=
        hI.advance hpc (fun _ => rfl) (fun _ => rfl) (fun _ => rfl) nofun nofun
      exact hmove.congr _ _ _ _
  case h_3 hpc =>
    cases h
    unfold pooling
    split
    · exact hI.give hpc
    · exact hI.advance hpc (fun _ => rfl) (fun _ => rfl) (fun _ => rfl) nofun nofun
  case h_4 pooled hpc =>
    cases h
    cases pooled with
    | true =>
      have hmove : Inv calls (s.goto i .done) :=
        hI.advance hpc nofun nofun (fun _ => rfl) nofun nofun
      exact hmove.congr _ _ _ _
    | false =>
      have hmove : Inv calls (s.goto i .closeR) :=
        hI.advance hpc (fun _ => rfl) (fun _ => rfl) (fun _ => rfl) nofun nofun
      exact hmove.congr _ _ _ _
  case h_5 hpc =>
    cases h
    exact hI.closeR hpc
  case h_6 hpc =>
    cases h
    exact hI.closeW hpc (hC hpc)
  case h_7 => cases h

theorem Inv.expire (h : expire s i = some u) : Inv calls u := by
  unfold Parker.expire at h
  split at h
  case h_1 hpc =>
    cases h
    split
    · rename_i hgranted
      apply hI.goto
      · rw [hpc]
        exact fun _ => rfl
      · rw [hpc]
        exact fun _ => rfl
      · exact fun _ => rfl
      · exact fun _ _ => .inr hgranted
      · rw [hpc]
        nofun
    · apply hI.deactivate
      · rw [hpc]
        exact fun _ => rfl
      · rw [hpc]
        exact fun _ => rfl
      · exact fun _ => rfl
  case h_2 hpc =>
    cases h
    exact hI.awaitItem hpc rfl nofun rfl
  case h_3 => cases h

theorem Inv.raise (h : raise s i = some u) : Inv calls u := by
  unfold Parker.raise at h
  split at h
  case h_1 hpc =>
    cases h
    exact hI.advance hpc (fun _ => rfl) (fun _ => rfl) (fun _ => rfl) nofun nofun
  case h_2 hpc =>
    cases h
    exact hI.advance hpc (fun _ => rfl) (fun _ => rfl) (fun _ => rfl) (fun _ => rfl) nofun
  case h_3 hpc =>
    cases h
    exact hI.awaitItem hpc rfl nofun rfl
  case h_4 => cases h

theorem Inv.callNext (h : callNext (calls i) s i = some u) : Inv calls u := by
  cases hc : calls i with
  | submit =>
    rw [hc] at h
    exact hI.submitNext h
  | acquire m blocking timed =>
    rw [hc] at h
    apply hI.acquireNext _ h
    rw [hc]
    exact decide_eq_true rfl
  | get q timed =>
    rw [hc] at h
    apply hI.getNext _ h
    rw [hc]
    rfl

theorem Inv.takeable_getLast {r w : ℕ} (hlast : s.pool.getLast? = some (r, w))
    (howed : s.ForallOwed fun p => s.wfd p ≠ w) : Takeable s s.pool.dropLast r w := by
  have hpool : s.pool = s.pool.dropLast ++ [(r, w)] := (dropLast_append_getLast? _ hlast).symm
  obtain ⟨hr, hw⟩ := hI.pool (r, w) (mem_of_getLast? hlast)
  have hnodupR := hI.poolR
  have hnodupW := hI.poolW
  rw [hpool, map_append, nodup_append] at hnodupR hnodupW
  refine ⟨?_, .inr hr, .inr hw, dropLast_sublist _, ?_, ?_, howed⟩
  · rintro rfl
    rw [hr] at hw
    cases hw
  · intro p hp
    exact hnodupR.2.2 p.1 (mem_map_of_mem hp) r (by simp)
  · intro p hp
    exact hnodupW.2.2 p.2 (mem_map_of_mem hp) w (by simp)

theorem Inv.popPool (hpc : s.pc i = .popPool)
    (hC : ∀ pair ∈ s.pool.getLast?, s.ForallOwed fun p => s.wfd p ≠ pair.2) (cl : Call) :
    Inv calls (popPool cl s i) := by
  unfold Parker.popPool
  split
  · rename_i r w hlast
    exact hI.take (hI.takeable_getLast hlast (hC _ hlast)) (.inl hpc) cl
  · exact hI.advance hpc nofun nofun nofun nofun nofun

theorem Inv.next (hC : (s.pc i = .closeW → s.ForallOwed fun p => p ≠ i) ∧
      (s.pc i = .popPool → ∀ pair ∈ s.pool.getLast?, s.ForallOwed fun p => s.wfd p ≠ pair.2))
    (h : next (calls i) s i = some u) : Inv calls u := by
  unfold Parker.next at h
  split at h
  · rename_i hpc
    cases h
    exact hI.popPool hpc (hC.2 hpc) _
  · cases hcall : Parker.callNext (calls i) s i with
    | some v =>
      rw [hcall] at h
      cases h
      exact hI.callNext hcall
    | none =>
      rw [hcall, Option.none_or] at h
      exact hI.releaseNext hC.1 h

theorem Inv.takeable_free {r w : ℕ} (hr : s.use r = .free) (hw : s.use w = .free)
    (hne : r ≠ w) : Takeable s s.pool r w := by
  refine ⟨hne, .inl hr, .inl hw, List.Sublist.refl _, ?_, ?_, ?_⟩
  · rintro p hp rfl
    have hold := (hI.pool p hp).1
    rw [hr] at hold
    cases hold
  · rintro p hp rfl
    have hold := (hI.pool p hp).2
    rw [hw] at hold
    cases hold
  · apply hI.owed.mono rfl rfl
    intro p hp h
    rw [h, hw] at hp
    rcases hp with h | h <;> cases h

end

end calls

/-! ## Steps of a waker -/

variable {l : List ℕ}

theorem Inv.setItemWaiters (hI : Inv calls s) {q : ℕ} (hl : ∀ i ∈ l, (calls i).isGet = true) :
    Inv calls { s with itemWaiters := update s.itemWaiters q l } := by
  refine { hI with itemWaiters := ?_ }
  intro q' i hi
  by_cases hq' : q' = q
  · subst hq'
    simp only [update_self] at hi
    exact hl i hi
  · simp only [update_of_ne hq'] at hi
    exact hI.itemWaiters q' i hi

theorem Inv.write (hI : Inv calls s) {p : ℕ} (hp : (s.use (s.wfd p)).sound p) : Inv calls (write s p) := by
  unfold Parker.write
  split
  · refine { hI with bytes := ?_ }
    intro b hb
    rcases mem_append.mp hb with hb | hb
    · exact hI.bytes b hb
    · cases mem_singleton.mp hb
      exact hp
  · exact hI

theorem popActive_some {active : ℕ → Bool} {rest : List ℕ} (h : popActive active l = (some i, rest)) :
    active i = true ∧ (i :: rest).Sublist l := by
  induction l with
  | nil => cases h
  | cons j l ih =>
    unfold popActive at h
    split at h
    · rename_i hj
      cases h
      exact ⟨hj, List.Sublist.refl _⟩
    · exact ⟨(ih h).1, (ih h).2.cons j⟩

theorem popActive_none {active : ℕ → Bool} {rest : List ℕ}
    (h : popActive active l = (none, rest)) : rest = [] := by
  induction l with
  | nil =>
    cases h
    rfl
  | cons j l ih =>
    unfold popActive at h
    split at h
    · cases h
    · exact ih h

theorem Inv.setLockWaiters (hI : Inv calls s) {m : ℕ} (granted : ℕ → Bool) (hsub : l.Sublist (s.lockWaiters m))
    (hgrant : ∀ m', ∀ j ∈ update s.lockWaiters m l m', granted j = false) :
    Inv calls { s with
      lockWaiters := update s.lockWaiters m l
      granted := granted } := by
  have hmem : ∀ m', ∀ j ∈ update s.lockWaiters m l m', j ∈ s.lockWaiters m' := by
    intro m' j hj
    by_cases hm' : m' = m
    · subst hm'
      rw [update_self] at hj
      exact hsub.subset hj
    · rw [update_of_ne hm'] at hj
      exact hj
  refine { hI with lockWaiters := ?_, lockNodup := ?_ }
  · intro m' j hj
    obtain ⟨hm, hreg, -, hact⟩ := hI.lockWaiters m' j (hmem m' j hj)
    exact ⟨hm, hreg, hgrant m' j hj, hact⟩
  · intro m'
    by_cases hm' : m' = m
    · subst hm'
      simp only [update_self]
      exact hsub.nodup (hI.lockNodup m')
    · simp only [update_of_ne hm']
      exact hI.lockNodup m'

theorem Call.locks_unique {cl : Call} {m m' : ℕ} (h : cl.locks m = true) (h' : cl.locks m' = true) : m = m' := by
  cases cl with
  | submit => cases h
  | acquire n b t => exact (of_decide_eq_true h).symm.trans (of_decide_eq_true h')
  | get q t => cases h

section wakers

variable [DecidableEq W] {k : W} {d : WakerPc}

theorem Inv.wakerTo (hI : Inv calls s) (howed : ∀ p ∈ d.target, (s.use (s.wfd p)).sound p)
    (hread : ∀ q i, d = .readActive q i → (calls i).isGet = true) :
    Inv calls (s.wakerTo k d) := by
  refine { hI with owed := ⟨hI.owed.1, ?_⟩, readActive := ?_ }
  · intro k' p hp
    by_cases hk : k' = k
    · subst hk
      simp only [State.wakerTo, update_self] at hp
      exact howed p hp
    · simp only [State.wakerTo, update_of_ne hk] at hp
      exact hI.owed.2 k' p hp
  · intro k' q i hk'
    by_cases hk : k' = k
    · subst hk
      simp only [State.wakerTo, update_self] at hk'
      exact hread q i hk'
    · simp only [State.wakerTo, update_of_ne hk] at hk'
      exact hI.readActive k' q i hk'

theorem Inv.wakerNext (hI : Inv calls s) (h : wakerNext s k = some u) : Inv calls u := by
  have hbond : ∀ p ∈ (s.waker k).target, (s.use (s.wfd p)).sound p := hI.owed.2 k
  unfold Parker.wakerNext at h
  split at h
  case h_1 => cases h
  case h_2 p hk =>
    cases h
    rw [hk] at hbond
    exact hI.wakerTo hbond nofun
  case h_3 p hk =>
    cases h
    rw [hk] at hbond
    have hmove : Inv calls (s.wakerTo k (.unpark p)) := hI.wakerTo hbond nofun
    exact hmove.congr _ _ _ _
  case h_4 q hk =>
    cases h
    split <;> exact hI.wakerTo nofun nofun
  case h_5 q hk =>
    split at h
    · cases h
      exact hI.wakerTo nofun nofun
    · rename_i p rest hq
      cases h
      have hget : ∀ i ∈ p :: rest, (calls i).isGet = true := by
        rw [← hq]
        exact hI.itemWaiters q
      have hrest : Inv calls { s with itemWaiters := update s.itemWaiters q rest } :=
        hI.setItemWaiters fun i hi => hget i (mem_cons_of_mem p hi)
      apply hrest.wakerTo (d := .readActive q p) nofun
      intro q' i hi
      cases hi
      exact hget p mem_cons_self
  case h_6 q p hk =>
    cases h
    split
    · -- the flag is still set, so the getter has its parker
      rename_i hactive
      apply hI.wakerTo (d := .unpark p) _ nofun
      intro p' hp'
      cases hp'
      have hawait := hI.getActive p (hI.readActive k q p hk) hactive
      exact .inl (hI.wfd p (Pc.holdsW_of_awaitsItem hawait))
    · exact hI.wakerTo nofun nofun
  case h_7 p hk =>
    cases h
    rw [hk] at hbond
    exact (hI.write (hbond p rfl)).wakerTo nofun nofun

theorem Inv.releaseLock (hI : Inv calls s) (m : ℕ) : Inv calls (releaseLock s k m) := by
  unfold Parker.releaseLock
  split
  · rename_i i rest hpop
    obtain ⟨hactive, hsub⟩ := popActive_some hpop
    have hmem : i ∈ s.lockWaiters m := hsub.subset mem_cons_self
    obtain ⟨hm, -, -, hawait⟩ := hI.lockWaiters m i hmem
    have hnotin : i ∉ rest := (nodup_cons.mp (hsub.nodup (hI.lockNodup m))).1
    have hrecords := hI.setLockWaiters (update s.granted i true)
      ((sublist_cons_self i rest).trans hsub) (m := m) ?_
    · apply hrecords.wakerTo (d := .unpark i) _ nofun
      intro p hp
      cases hp
      exact .inl (hI.wfd i (Pc.holdsW_of_awaitsLock (hawait hactive)))
    · intro m' j hj
      have hji : j ≠ i := by
        rintro rfl
        by_cases hm' : m' = m
        · subst hm'
          rw [update_self] at hj
          exact hnotin hj
        · rw [update_of_ne hm'] at hj
          exact hm' (Call.locks_unique (hI.lockWaiters m' j hj).1 hm)
      rw [update_of_ne hji]
      by_cases hm' : m' = m
      · subst hm'
        rw [update_self] at hj
        exact (hI.lockWaiters m' j (hsub.subset (mem_cons_of_mem i hj))).2.2.1
      · rw [update_of_ne hm'] at hj
        exact (hI.lockWaiters m' j hj).2.2.1
  · rename_i rest hpop
    obtain rfl := popActive_none hpop
    have hrecords := hI.setLockWaiters s.granted (nil_sublist (s.lockWaiters m)) (m := m) ?_
    · exact hrecords.congr _ _ _ _
    · intro m' j hj
      by_cases hm' : m' = m
      · subst hm'
        rw [update_self] at hj
        cases hj
      · rw [update_of_ne hm'] at hj
        exact (hI.lockWaiters m' j hj).2.2.1

end wakers

/-! ## The step lemma -/

section jobs

variable [DecidableEq S]

theorem Inv.enqueue (hI : Inv calls s) (hpc : s.pc i = .enqueue) (shard : S) : Inv calls ({ s with
      jobs := update s.jobs shard (s.jobs shard ++ [i]) }.goto i .checkDone) := by
  have hw : s.use (s.wfd i) = .write (.parker i) := hI.wfd i (by rw [hpc]; rfl)
  have hmove : Inv calls (s.goto i .checkDone) :=
    hI.advance hpc (fun _ => rfl) (fun _ => rfl) nofun nofun nofun
  refine { hmove with owed := ⟨?_, hI.owed.2⟩ }
  intro shard' p hp
  by_cases hs : shard' = shard
  · subst hs
    simp only [State.goto, update_self, mem_append, mem_singleton] at hp
    rcases hp with hp | rfl
    · exact hI.owed.1 shard' p hp
    · exact .inl hw
  · simp only [State.goto, update_of_ne hs] at hp
    exact hI.owed.1 shard' p hp

theorem Inv.takeJob [DecidableEq W] (hI : Inv calls s) {k : W} {shard : S} {p : ℕ} {rest : List ℕ}
    (hjobs : s.jobs shard = p :: rest) :
    Inv calls ({ s with jobs := update s.jobs shard rest }.wakerTo k (.run p)) := by
  have hqueue : Inv calls { s with jobs := update s.jobs shard rest } := by
    refine { hI with owed := ⟨?_, hI.owed.2⟩ }
    intro shard' p' hp'
    by_cases hs : shard' = shard
    · subst hs
      simp only [update_self] at hp'
      apply hI.owed.1 shard' p'
      rw [hjobs]
      exact mem_cons_of_mem p hp'
    · simp only [update_of_ne hs] at hp'
      exact hI.owed.1 shard' p' hp'
  apply hqueue.wakerTo (d := .run p) _ nofun
  intro p' hp'
  cases hp'
  apply hI.owed.1 shard p
  rw [hjobs]
  exact mem_cons_self

end jobs

variable [DecidableEq W] [DecidableEq S]

theorem Inv.step (hI : Inv calls s) {a : Action W S} (hC : Undisturbed s a)
    (ha : step calls s a = some u) : Inv calls u := by
  cases a with
  | call i =>
    simp only [Parker.step] at ha
    split at ha
    · rename_i hpc
      cases ha
      cases hc : calls i with
      | submit | acquire m b t | get q t => exact hI.advance hpc nofun nofun nofun nofun nofun
    · cases ha
  | next i => exact hI.next hC ha
  | pipe i r w =>
    simp only [Parker.step] at ha
    split at ha
    · rename_i hguard
      obtain ⟨hpc, hr, hw, hne⟩ := hguard
      cases ha
      exact hI.take (hI.takeable_free hr hw hne) (.inr hpc) _
    · cases ha
  | enqueue i shard =>
    simp only [Parker.step] at ha
    split at ha
    · rename_i hpc
      cases ha
      exact hI.enqueue hpc shard
    · cases ha
  | expire i => exact hI.expire ha
  | raise i => exact hI.raise ha
  | takeJob k shard =>
    simp only [Parker.step] at ha
    split at ha
    · rename_i p rest _ hjobs
      cases ha
      exact hI.takeJob hjobs
    · cases ha
  | release k m =>
    simp only [Parker.step] at ha
    split at ha <;> cases ha
    exact hI.releaseLock m
  | put k q =>
    simp only [Parker.step] at ha
    split at ha <;> cases ha
    have hmove : Inv calls (s.wakerTo k (.putTest q)) := hI.wakerTo nofun nofun
    exact hmove.congr _ _ _ _
  | wakerNext k => exact hI.wakerNext ha
  | openFd n | closeFd n =>
    simp only [Parker.step] at ha
    split at ha
    · rename_i hn
      cases ha
      apply hI.setUse_unrelated
      rw [hn]
      exact fun _ => ⟨nofun, nofun⟩
    · cases ha

theorem Inv.of_reachable (hs : (parkers W S calls).ReachableWith Undisturbed s) : Inv calls s :=
  hs.invariant (fun _ => .of_init) fun _ _ _ hI hC ha => hI.step hC ha

/-! ## Main result -/

/-- If no pair changes hands while a byte is owed through it, every byte went to the write end of its parker's pipe.
-/
theorem wake_bytes_stay_home (calls : ℕ → Call) (s : State W S)
    (hs : (parkers W S calls).ReachableWith Undisturbed s) (p : ℕ) (v : Use)
    (hb : (p, v) ∈ s.bytes) : v = .write (.parker p) ∨ v = .write .pool :=
  (Inv.of_reachable hs).bytes _ hb

def State.initial : State Bool Unit where
  use _ := .free
  rfd _ := 0
  wfd _ := 0
  pool := []
  poolLock := false
  pc _ := .idle
  jobs _ := []
  finished _ := false
  locked _ := false
  lockWaiters _ := []
  granted _ := false
  items _ := 0
  itemWaiters _ := []
  active _ := false
  waker _ := .idle
  bytes := []

theorem init_initial : Init State.initial :=
  ⟨fun _ => .inl rfl, rfl, rfl, fun _ => rfl, fun _ => rfl, fun _ => rfl, fun _ => rfl,
    fun _ => rfl, fun _ => rfl, fun _ => rfl, rfl⟩

/-- Call `i` submits a job; worker `k` runs it and sets the flag. -/
def runJob (i r w : ℕ) (k : Bool) : List (Action Bool Unit) :=
  [.call i, .next i, .pipe i r w, .enqueue i (), .takeJob k (), .wakerNext k, .wakerNext k]

/-- The call sees the flag before the byte and pools its pair; the byte follows. -/
def writeToPool : List (Action Bool Unit) :=
  runJob 0 3 4 true ++ [Action.next 0, .next 0, .next 0, .next 0, .next 0, .wakerNext true]

theorem wake_bytes_stay_home_writeToPool : ∃ s, (parkers Bool Unit fun _ => .submit).ReachableWith Undisturbed s ∧
      (0, .write .pool) ∈ s.bytes ∧
      (Use.write .pool = .write (.parker 0) ∨ Use.write .pool = .write .pool) := by
  obtain ⟨s, hs, hp⟩ := (parkers Bool Unit fun _ => .submit).reachesWith Undisturbed (fun s => (0, .write .pool) ∈ s.bytes) writeToPool
    init_initial (by decide +kernel)
  exact ⟨s, hs, hp, wake_bytes_stay_home _ s hs 0 _ hp⟩

/-- Call 0 sees its flag and closes its pair; a file is opened under the number, and the worker writes. -/
def closeThenWrite : List (Action Bool Unit) :=
  runJob 0 3 4 true ++ runJob 1 5 6 false ++
    [Action.next 1, .next 1, .next 1, .next 0, .next 0, .next 0, .next 0, .next 0, .openFd 4, .wakerNext true]

theorem wake_byte_in_foreign_file : ∃ s, (parkers Bool Unit fun _ => .submit).Reachable s ∧
      (0, .other) ∈ s.bytes ∧ ¬(Use.other = .write (.parker 0) ∨ Use.other = .write .pool) := by
  obtain ⟨s, hs, hp⟩ := (parkers Bool Unit fun _ => .submit).reaches
    (fun s => (0, .other) ∈ s.bytes) closeThenWrite init_initial (by decide +kernel)
  exact ⟨s, hs, hp, by decide⟩

theorem wake_byte_in_next_parker : ∃ s, (parkers Bool Unit fun _ => .submit).Reachable s ∧
      (0, .write (.parker 1)) ∈ s.bytes := by
  exact (parkers Bool Unit fun _ => .submit).reaches (fun s => (0, .write (.parker 1)) ∈ s.bytes)
    (runJob 0 3 4 true ++ [Action.next 0, .next 0, .next 0, .next 0, .next 0, .call 1, .next 1,
      .wakerNext true]) init_initial (by decide +kernel)

end Runloom.Parker
