import Runloom.OffloadJob.Lifetime

/-!
# The jobs of the blocking pool: wake credits

A worker gives its caller one credit, and the caller is to have eaten it when the call is over.  As long as each
worker claims the park of its own job's call, `wake_pending` is 0 again after each call.
-/

namespace Runloom.OffloadJob

open Transition State

variable {F S W R : Type*} {fn : ℕ → R} {s t : State F S W R} {f : F} {w : W} {n : ℕ}

/-- A claim of `wake_safe` that goes through is of a park in the call of the job. -/
def ClaimsOwn (s : State F S W R) : WorkerPc F → Prop
  | .wake n _ g .claim => (s.fiber g).parkedSafe = true → (s.fiber g).pc.call = some n
  | _ => True

instance (s : State F S W R) : (c : WorkerPc F) → Decidable (ClaimsOwn s c)
  | .wake _ _ _ .claim => inferInstanceAs (Decidable (_ → _))
  | .wake _ _ _ .bump | .wake _ _ _ .enqueue => .isTrue trivial
  | .idle | .took _ | .run .. | .ran .. | .poke _ | .decrement _ => .isTrue trivial

def OwnClaim (s : State F S W R) : Action F S W → Prop
  | .worker w => ClaimsOwn s (s.worker w)
  | _ => True

instance (s : State F S W R) : (a : Action F S W) → Decidable (OwnClaim s a)
  | .worker w => inferInstanceAs (Decidable (ClaimsOwn s (s.worker w)))
  | .call .. | .park _ | .fiber _ | .resume _ | .wake .. | .claim _ | .enqueue _ => .isTrue trivial

/-- Whether the fiber has stored `parked_safe` and was not resumed since. -/
def Pc.committed {S : Type*} : Pc S → ℤ
  | .recheck _ | .abort _ | .parked _ => 1
  | _ => 0

def Pc.found {S : Type*} : Pc S → Bool
  | .abort _ | .eat _ | .test _ => true
  | _ => false

/-- Whether the fiber has eaten a credit that it has not looked at `done` for. -/
def Pc.spent {S : Type*} : Pc S → Bool
  | .test _ => true
  | _ => false

def WorkerPc.pushes [DecidableEq F] (f : F) : WorkerPc F → ℤ
  | .wake _ _ g .enqueue => if g = f then 1 else 0
  | _ => 0

def credited {S : Type*} (b : ℕ → Book R) (c : Pc S) : Bool := c.call.any fun n => (b n).bumped

theorem credited_of_call {b : ℕ → Book R} {c : Pc S} (h : c.call = some n) : credited b c = (b n).bumped := by
  rw [credited, h, Option.any_some]

/-- The credit of the call is in `wake_pending` until it is eaten, and nothing else is. -/
structure Accounted (b : ℕ → Book R) (x : Fiber S) : Prop where
  resumed : 0 < x.entries → credited b x.pc = true
  found : x.pc.found = true → credited b x.pc = true
  pending : x.wakePending = if credited b x.pc = true ∧ x.pc.spent = false then 1 else 0

/-- Whom a worker wakes, whether it has brought the credit, whose park it has claimed. -/
def Sound (s : State F S W R) : WorkerPc F → Prop
  | .idle | .took _ | .poke _ | .decrement _ => True
  | .run n _ g | .ran n _ g => (s.job n).g = g
  | .wake n _ g .bump => (s.job n).g = g ∧ (s.book n).bumped = false
  | .wake n _ g .claim => (s.job n).g = g ∧ (s.book n).bumped = true
  | .wake n _ g .enqueue => (s.job n).g = g ∧ (s.book n).bumped = true ∧ (s.fiber g).pc.call = some n

structure Credits [Fintype W] [DecidableEq F] (s : State F S W R) : Prop where
  token : ∀ f, (s.fiber f).parkedSafe.toInt + (s.fiber f).entries + ∑ w, (s.worker w).pushes f =
    (s.fiber f).pc.committed
  fiber : ∀ f, Accounted s.book (s.fiber f)
  worker : ∀ w, Sound s (s.worker w)
  done : ∀ n, (s.book n).bumped = true → (s.job n).done = true
  unbumped : ∀ n, n < s.jobs → (s.book n).bumped = false → (s.fiber (s.job n).g).pc.call = some n

variable [DecidableEq F]

theorem pushes_nonneg (f : F) (c : WorkerPc F) : 0 ≤ c.pushes f := by
  cases c with
  | wake n hub g x =>
    cases x with
    | enqueue =>
      simp only [WorkerPc.pushes]
      split <;> omega
    | _ => exact le_refl _
  | _ => exact le_refl _

variable [Fintype W]

theorem Credits.init (h : Init s) : Credits s where
  token f := by simp [h.fiber, h.worker, WorkerPc.pushes, Pc.committed]
  fiber f := by
    rw [h.fiber]
    exact ⟨fun h => absurd h (Nat.lt_irrefl 0), nofun, rfl⟩
  worker w := by
    rw [h.worker]
    trivial
  done n hn := by
    rw [h.book] at hn
    cases hn
  unbumped n hn := by
    rw [h.jobs] at hn
    exact absurd hn (Nat.not_lt_zero n)

/-! ## What is known of a fiber -/

theorem Credits.sum_pushes_nonneg (f : F) (s : State F S W R) : 0 ≤ ∑ v, (s.worker v).pushes f :=
  Finset.sum_nonneg fun _ _ => pushes_nonneg f _

theorem Credits.uncommitted (hC : Credits s) (hf : (s.fiber f).pc.committed = 0) :
    (s.fiber f).parkedSafe = false ∧ (s.fiber f).entries = 0 ∧ ∀ w, (s.worker w).pushes f = 0 := by
  have htoken := hC.token f
  have hsum := Credits.sum_pushes_nonneg f s
  have hpos : 0 ≤ (s.fiber f).parkedSafe.toInt := by cases (s.fiber f).parkedSafe <;> decide
  rw [hf] at htoken
  refine ⟨?_, by omega, fun w => ?_⟩
  · cases h : (s.fiber f).parkedSafe with
    | false => rfl
    | true =>
      rw [h, Bool.toInt_true] at htoken
      omega
  · have hle := Finset.single_le_sum (fun v _ => pushes_nonneg f (s.worker v)) (Finset.mem_univ w)
    have := pushes_nonneg f (s.worker w)
    omega

theorem Credits.ne_of_enqueue (hC : Credits s) {hub : Bool} {g : F} (hf : (s.fiber f).pc.committed = 0)
    (hw : s.worker w = .wake n hub g .enqueue) : g ≠ f := by
  intro hgf
  have hzero := (hC.uncommitted hf).2.2 w
  rw [hw, WorkerPc.pushes, if_pos hgf] at hzero
  cases hzero

theorem Credits.wakePending_eq_zero (hC : Credits s) (hf : (s.fiber f).pc.call = none) :
    (s.fiber f).wakePending = 0 := by
  have hpending := (hC.fiber f).pending
  rwa [credited, hf, if_neg fun h => nomatch h.1] at hpending

/-! ## Frames -/

omit [DecidableEq F] [Fintype W] in
theorem Sound.congr {c : WorkerPc F} (hc : Sound s c)
    (hjob : ∀ n, c.job = some n → (t.job n).g = (s.job n).g ∧ (t.book n).bumped = (s.book n).bumped)
    (hcall : ∀ n hub g, c = .wake n hub g .enqueue → (t.fiber g).pc.call = (s.fiber g).pc.call) : Sound t c := by
  cases c with
  | idle | took | poke | decrement => trivial
  | run n hub g | ran n hub g => exact (hjob n rfl).1.trans hc
  | wake n hub g x =>
    obtain ⟨hg, hb⟩ := hjob n rfl
    cases x with
    | bump | claim => exact ⟨hg.trans hc.1, hb.trans hc.2⟩
    | enqueue => exact ⟨hg.trans hc.1, hb.trans hc.2.1, (hcall n hub g rfl).trans hc.2.2⟩

variable {x : Fiber S}

omit [DecidableEq F] [Fintype W] in
theorem Accounted.congr {b c : ℕ → Book R} (hx : Accounted b x)
    (hb : ∀ n, x.pc.call = some n → (c n).bumped = (b n).bumped) : Accounted c x := by
  have heq : credited c x.pc = credited b x.pc := by
    cases hcall : x.pc.call with
    | none => rw [credited, credited, hcall, Option.any_none, Option.any_none]
    | some n => rw [credited_of_call hcall, credited_of_call hcall, hb n hcall]
  refine ⟨fun h => ?_, fun h => ?_, ?_⟩
  · rw [heq]
    exact hx.resumed h
  · rw [heq]
    exact hx.found h
  · rw [heq]
    exact hx.pending

theorem Credits.congr (hC : Credits s) {q : S → List ℕ} {z : ℤ} {j : ℕ → Job F R} {b : ℕ → Book R}
    (hg : ∀ n, (j n).g = (s.job n).g) (hdone : ∀ n, (s.job n).done = true → (j n).done = true)
    (hb : ∀ n, (b n).bumped = (s.book n).bumped) :
    Credits { s with queue := q, inflight := z, job := j, book := b } where
  token := hC.token
  fiber f := (hC.fiber f).congr fun n _ => hb n
  worker w := (hC.worker w).congr (fun n _ => ⟨hg n, hb n⟩) fun _ _ _ _ => rfl
  done n hn := hdone n (hC.done n ((hb n).symm.trans hn))
  unbumped n hn hbump := by
    have := hC.unbumped n hn ((hb n).symm.trans hbump)
    rwa [← hg n] at this

theorem Credits.setBook (hC : Credits s) {q : S → List ℕ} {z : ℤ} {b : Book R}
    (hb : b.bumped = (s.book n).bumped) : Credits ({ s with queue := q, inflight := z }.setBook n b) := by
  refine hC.congr (j := s.job) (fun _ => rfl) (fun _ => id) fun m => ?_
  by_cases hm : m = n
  · rw [hm, update_self, hb]
  · rw [update_of_ne hm]

theorem Credits.setFiber (hC : Credits s) (htoken : x.parkedSafe.toInt + x.entries - x.pc.committed =
      (s.fiber f).parkedSafe.toInt + (s.fiber f).entries - (s.fiber f).pc.committed)
    (hx : Accounted s.book x)
    (hcall : x.pc.call = (s.fiber f).pc.call ∨
      (s.fiber f).pc.committed = 0 ∧ ∀ n, (s.fiber f).pc.call = some n → (s.book n).bumped = true) :
    Credits (s.setFiber f x) := by
  refine ⟨?_, ?_, fun w => ?_, hC.done, fun n hn hb => ?_⟩
  · refine State.forall_setFiber (P := fun d y => y.parkedSafe.toInt + y.entries + ∑ v, (s.worker v).pushes d =
      y.pc.committed) ?_ fun d _ => hC.token d
    have hold := hC.token f
    omega
  · exact State.forall_setFiber (P := fun _ y => Accounted s.book y) hx fun d _ => hC.fiber d
  · refine (hC.worker w).congr (fun _ _ => ⟨rfl, rfl⟩) fun n hub g hw => ?_
    rcases hcall with hcall | ⟨hf, -⟩
    · exact State.forall_setFiber (P := fun d y => y.pc.call = (s.fiber d).pc.call) hcall (fun _ _ => rfl) g
    · rw [State.setFiber_of_ne s x (hC.ne_of_enqueue hf hw)]
  · have hold := hC.unbumped n hn hb
    show ((s.setFiber f x).fiber (s.job n).g).pc.call = some n
    by_cases hg : (s.job n).g = f
    · rw [hg] at hold ⊢
      rw [State.setFiber_self]
      rcases hcall with hcall | ⟨-, hbump⟩
      · rw [hcall, hold]
      · have hfalse : (s.book n).bumped = false := hb
        rw [hbump n hold] at hfalse
        cases hfalse
    · rw [State.setFiber_of_ne s x hg]
      exact hold

/-! ## The fibers -/

section Fibers

variable {b : ℕ → Book R} {x y : Fiber S}

omit [DecidableEq F] [Fintype W]

theorem Accounted.credited_of_pending (hx : Accounted b x) (h : 0 < x.wakePending) : credited b x.pc = true := by
  have hpending := hx.pending
  split at hpending
  next hc => exact hc.1
  next => omega

theorem credited_congr {c d : Pc S} (h : c.call = d.call) : credited b c = credited b d := by
  rw [credited, credited, h]

theorem Accounted.goOn (hx : Accounted b x) (hcall : y.pc.call = x.pc.call) (hentries : y.entries ≤ x.entries)
    (hpending : y.wakePending = x.wakePending) (hspent : y.pc.spent = x.pc.spent)
    (hfound : y.pc.found = true → x.pc.found = true ∨ 0 < x.wakePending ∨ 0 < x.entries) : Accounted b y := by
  have heq := credited_congr (b := b) hcall
  refine ⟨fun h => ?_, fun h => ?_, ?_⟩
  · rw [heq]
    exact hx.resumed (Nat.lt_of_lt_of_le h hentries)
  · rw [heq]
    rcases hfound h with h | h | h
    · exact hx.found h
    · exact hx.credited_of_pending h
    · exact hx.resumed h
  · rw [hpending, heq, hspent]
    exact hx.pending

theorem Accounted.eat (hx : Accounted b x) (hcall : y.pc.call = x.pc.call) (hentries : y.entries ≤ x.entries)
    (hpending : y.wakePending = x.wakePending - 1) (hspent : x.pc.spent = false ∧ y.pc.spent = true)
    (hcredit : credited b x.pc = true) : Accounted b y := by
  have heq := credited_congr (b := b) hcall
  have hold := hx.pending
  rw [if_pos ⟨hcredit, hspent.1⟩] at hold
  refine ⟨fun h => ?_, fun h => ?_, ?_⟩
  · rw [heq]
    exact hx.resumed (Nat.lt_of_lt_of_le h hentries)
  · rw [heq]
    exact hcredit
  · rw [hpending, hold, hspent.2]
    exact (if_neg fun h => nomatch h.2).symm

theorem Accounted.leave (hx : Accounted b x) (hspent : x.pc.spent = true) (hentries : x.entries = 0) :
    Accounted b ({ x with pc := .running } : Fiber S) := by
  have hold := hx.pending
  rw [if_neg fun h => by rw [hspent] at h; nomatch h.2] at hold
  refine ⟨fun h => ?_, nofun, ?_⟩
  · have : 0 < x.entries := h
    omega
  · exact hold.trans (if_neg fun h => nomatch h.1).symm

end Fibers

theorem Credits.advance (hC : Credits s) {c : Pc S} (hpc : (s.fiber f).pc = c)
    (hcall : x.pc.call = c.call) (hspent : x.pc.spent = c.spent)
    (htoken : x.parkedSafe.toInt + x.entries - x.pc.committed =
      (s.fiber f).parkedSafe.toInt + (s.fiber f).entries - c.committed)
    (hentries : x.entries ≤ (s.fiber f).entries) (hpending : x.wakePending = (s.fiber f).wakePending)
    (hfound : x.pc.found = true → c.found = true ∨ 0 < (s.fiber f).wakePending ∨ 0 < (s.fiber f).entries) :
    Credits (s.setFiber f x) := by
  subst hpc
  exact hC.setFiber htoken ((hC.fiber f).goOn hcall hentries hpending hspent hfound) (.inl hcall)

theorem Credits.eat (hC : Credits s) {c : Pc S} (hpc : (s.fiber f).pc = c)
    (hcall : x.pc.call = c.call) (hspent : c.spent = false ∧ x.pc.spent = true)
    (htoken : x.parkedSafe.toInt + x.entries - x.pc.committed =
      (s.fiber f).parkedSafe.toInt + (s.fiber f).entries - c.committed)
    (hentries : x.entries ≤ (s.fiber f).entries) (hpending : x.wakePending = (s.fiber f).wakePending - 1)
    (hcredit : c.found = true ∨ 0 < (s.fiber f).wakePending) : Credits (s.setFiber f x) := by
  subst hpc
  have hx := hC.fiber f
  have hcredited : credited s.book (s.fiber f).pc = true := hcredit.elim hx.found hx.credited_of_pending
  exact hC.setFiber htoken (hx.eat hcall hentries hpending hspent hcredited) (.inl hcall)

theorem Credits.fiberStep [DecidableEq S] (hC : Credits s) (h : s.fiberStep f = some t) : Credits t := by
  unfold State.fiberStep at h
  simp only at h
  split at h
  next => cases h
  next => cases h
  next n shard hpc =>
    cases h
    refine Credits.advance (hC.setBook ?_) hpc ?_ ?_ ?_ (Nat.le_refl _) ?_ nofun <;> rfl
  next n shard hpc =>
    cases h
    refine Credits.advance (hC.setBook ?_) hpc ?_ ?_ ?_ (Nat.le_refl _) ?_ nofun <;> rfl
  -- The first look at `wake_pending`: the credit of the call, or none.
  next j hpc =>
    cases h
    split
    next hpos => exact hC.eat hpc rfl ⟨rfl, rfl⟩ rfl (Nat.le_refl _) rfl (.inr hpos)
    next => exact hC.advance hpc rfl rfl rfl (Nat.le_refl _) rfl nofun
  -- The park is committed; before it there was no claim.
  next j hpc =>
    cases h
    refine hC.advance hpc rfl rfl ?_ (Nat.le_refl _) rfl nofun
    rw [(hC.uncommitted (by rw [hpc]; rfl)).1]
    show 1 + ((s.fiber f).entries : ℤ) - 1 = 0 + (s.fiber f).entries - 0
    omega
  -- The second look, and the claim of the fiber's own park.
  next j hpc =>
    cases h
    split
    next hpos => exact hC.advance hpc rfl rfl rfl (Nat.le_refl _) rfl fun _ => .inr (.inl hpos)
    next => exact hC.advance hpc rfl rfl rfl (Nat.le_refl _) rfl nofun
  next j hpc =>
    cases h
    split
    next hparked =>
      refine hC.eat hpc rfl ⟨rfl, rfl⟩ ?_ (Nat.le_refl _) rfl (.inl rfl)
      rw [hparked]
      show 0 + ((s.fiber f).entries : ℤ) - 0 = 1 + (s.fiber f).entries - 1
      omega
    next => exact hC.advance hpc rfl rfl rfl (Nat.le_refl _) rfl fun _ => .inl rfl
  -- Whoever resumed the fiber has brought the credit of this call.
  next j hpc =>
    cases h
    exact hC.eat hpc rfl ⟨rfl, rfl⟩ rfl (Nat.le_refl _) rfl (.inl rfl)
  next hpc =>
    -- Nothing has resumed the fiber outside of a call.
    have hfound := (hC.fiber f).found (by rw [hpc]; rfl)
    rw [hpc] at hfound
    cases hfound
  next n hpc =>
    have hfound := (hC.fiber f).found (by rw [hpc]; rfl)
    have hcall : (s.fiber f).pc.call = some n := by
      rw [hpc]
      rfl
    have hfree : (s.fiber f).pc.committed = 0 := by
      rw [hpc]
      rfl
    rw [credited_of_call hcall] at hfound
    rw [if_pos (hC.done n hfound)] at h
    cases h
    have hentries := (hC.uncommitted hfree).2.1
    have hB : Credits (s.setBook n { s.book n with returned := some (s.job n).result }) := hC.setBook rfl
    refine hB.setFiber ?_ ((hB.fiber f).leave ?_ hentries) (.inr ⟨hfree, fun m hm => ?_⟩)
    · show _ - 0 = _ - (s.fiber f).pc.committed
      rw [hfree]
      rfl
    · show (s.fiber f).pc.spent = true
      rw [hpc]
      rfl
    · have hmn : some n = some m := hcall.symm.trans hm
      cases hmn
      rw [State.setBook_self]
      exact hfound

variable [Fintype S]

theorem Credits.newJob (hC : Credits s) (hI : Inv fn s) {hub : Bool} {shard : S}
    (hpc : (s.fiber f).pc = .running) : Credits (s.call f hub shard) := by
  obtain ⟨hbook, -⟩ := hI.made s.jobs (Nat.le_refl _)
  have hjob : ∀ n, n ≠ s.jobs → (s.call f hub shard).job n = s.job n := fun n hn => update_of_ne hn ..
  have hjob' : (s.call f hub shard).job s.jobs = ⟨f, hub, none, false⟩ := update_self ..
  have hbooks : ∀ n, n ≠ s.jobs → (s.call f hub shard).book n = s.book n := fun n hn => update_of_ne hn ..
  have hbook' : (s.call f hub shard).book s.jobs = { Book.empty with before := (s.fiber f).wakePending } :=
    update_self ..
  have hbump : ∀ n, ((s.call f hub shard).book n).bumped = (s.book n).bumped := by
    intro n
    by_cases hn : n = s.jobs
    · rw [hn, hbook', hbook]
    · rw [hbooks n hn]
  have hf : (s.call f hub shard).fiber f = { s.fiber f with pc := .counting s.jobs shard } := update_self ..
  have hfd : ∀ d, d ≠ f → (s.call f hub shard).fiber d = s.fiber d := fun d hd => update_of_ne hd ..
  have hfree : (s.fiber f).pc.committed = 0 := by rw [hpc]; rfl
  refine ⟨fun d => ?_, fun d => ?_, fun w => ?_, fun n hn => ?_, fun n hn hb => ?_⟩
  · have hold := hC.token d
    by_cases hd : d = f
    · subst hd
      rw [hf]
      rw [hfree] at hold
      exact hold
    · rw [hfd d hd]
      exact hold
  · by_cases hd : d = f
    -- The new call has no credit yet, and the old one has left none.
    · subst hd
      have hold := (hC.fiber d).pending
      rw [hpc, if_neg fun h => nomatch h.1] at hold
      have hnone : credited (s.call d hub shard).book (Pc.counting s.jobs shard) = false := by
        rw [credited_of_call (n := s.jobs) rfl, hbump, hbook]
        rfl
      rw [hf]
      refine ⟨fun h => ?_, nofun, ?_⟩
      · have hpos : 0 < (s.fiber d).entries := h
        rw [(hC.uncommitted hfree).2.1] at hpos
        exact absurd hpos (Nat.lt_irrefl 0)
      · rw [hnone]
        exact hold
    · rw [hfd d hd]
      exact (hC.fiber d).congr fun n _ => hbump n
  · refine (hC.worker w).congr (fun n hn => ⟨?_, hbump n⟩) fun n hub' g hw => ?_
    · rw [hjob n (Nat.ne_of_lt (hI.lt_jobs (hI.busy hn).1))]
    · rw [hfd g (hC.ne_of_enqueue hfree hw)]
  · rw [hbump] at hn
    have hne : n ≠ s.jobs := by
      rintro rfl
      rw [hbook] at hn
      cases hn
    rw [hjob n hne]
    exact hC.done n hn
  -- Outside of a call a fiber has no job that is owed a credit.
  · rw [hbump] at hb
    by_cases hnj : n = s.jobs
    · subst hnj
      rw [hjob', hf]
      rfl
    · have hold := hC.unbumped n (Nat.lt_of_le_of_ne (Nat.le_of_lt_succ hn) hnj) hb
      have hg : (s.job n).g ≠ f := by
        intro heq
        rw [heq, hpc] at hold
        cases hold
      rw [hjob n hnj, hfd _ hg]
      exact hold

/-! ## The workers -/

section Workers

variable [DecidableEq W]

omit [Fintype S] in
theorem Credits.move (hC : Credits s) {k : F → Fiber S} {c : WorkerPc F} (hpc : ∀ d, (k d).pc = (s.fiber d).pc)
    (hx : ∀ d, Accounted s.book (k d))
    (htoken : ∀ d, (k d).parkedSafe.toInt + (k d).entries + c.pushes d =
      (s.fiber d).parkedSafe.toInt + (s.fiber d).entries + (s.worker w).pushes d)
    (hc : Sound s c) : Credits ({ s with fiber := k }.goto w c) := by
  refine ⟨fun d => ?_, hx, fun v => ?_, hC.done, fun n hn hb => ?_⟩
  · show (k d).parkedSafe.toInt + (k d).entries + ∑ v, (update s.worker w c v).pushes d = (k d).pc.committed
    have hold := hC.token d
    have hd := htoken d
    rw [sum_comp_update (Finset.mem_univ w) (WorkerPc.pushes d), hpc]
    omega
  · have hsound : Sound s (update s.worker w c v) := by
      by_cases hv : v = w
      · rw [hv, update_self]
        exact hc
      · rw [update_of_ne hv]
        exact hC.worker v
    refine hsound.congr (fun _ _ => ⟨rfl, rfl⟩) fun n hub g _ => ?_
    show (k g).pc.call = _
    rw [hpc]
  · show (k (s.job n).g).pc.call = some n
    rw [hpc]
    exact hC.unbumped n hn hb

omit [Fintype S] in
theorem Credits.goto (hC : Credits s) {c e : WorkerPc F} (hw : s.worker w = c)
    (hpush : ∀ d, e.pushes d = c.pushes d) (he : Sound s e) : Credits (s.goto w e) :=
  hC.move (k := s.fiber) (fun _ => rfl) hC.fiber (fun d => by rw [hpush, hw]) he

theorem Credits.bump (hC : Credits s) (hI : Inv fn s) {hub : Bool} {g : F} (hw : s.worker w = .wake n hub g .bump) :
    Credits (s.wakeStep w n hub g .bump) := by
  have hjob : (s.worker w).job = some n := by
    rw [hw]
    rfl
  obtain ⟨hg, hbump⟩ : (s.job n).g = g ∧ (s.book n).bumped = false := by
    have := hC.worker w
    rwa [hw] at this
  have hcall : (s.fiber g).pc.call = some n := by
    rw [← hg]
    exact hC.unbumped n (hI.lt_jobs (hI.busy hjob).1) hbump
  have hnone : credited s.book (s.fiber g).pc = false := by rw [credited_of_call hcall, hbump]
  -- Nor has the caller eaten one: it is not at its test.
  have hspent : (s.fiber g).pc.spent = false := by
    cases h : (s.fiber g).pc with
    | test j =>
      have hfound := (hC.fiber g).found (by rw [h]; rfl)
      rw [hnone] at hfound
      cases hfound
    | _ => rfl
  have hzero := (hC.fiber g).pending
  rw [if_neg fun h => by rw [hnone] at h; nomatch h.1] at hzero
  have hself : update s.book n { s.book n with bumped := true } n = { s.book n with bumped := true } :=
    update_self ..
  have hother : ∀ m, m ≠ n → update s.book n { s.book n with bumped := true } m = s.book m := fun m hm =>
    update_of_ne hm ..
  have hpcs : ∀ d, ((s.wakeStep w n hub g .bump).fiber d).pc = (s.fiber d).pc :=
    State.forall_setFiber (P := fun d y => y.pc = (s.fiber d).pc) rfl fun _ _ => rfl
  refine ⟨?_, ?_, fun v => ?_, fun m hm => ?_, fun m hm hb => ?_⟩
  · have hsum : ∀ d, ∑ v, ((s.wakeStep w n hub g .bump).worker v).pushes d = ∑ v, (s.worker v).pushes d := by
      intro d
      show ∑ v, (update s.worker w _ v).pushes d = _
      rw [sum_comp_update (Finset.mem_univ w) (WorkerPc.pushes d), hw]
      exact Int.sub_add_cancel _ 0
    intro d
    rw [hsum]
    exact State.forall_setFiber (P := fun d y => y.parkedSafe.toInt + y.entries + ∑ v, (s.worker v).pushes d =
      y.pc.committed) (x := { s.fiber g with wakePending := (s.fiber g).wakePending + 1 }) (hC.token g)
      (fun d _ => hC.token d) d
  · refine State.forall_setFiber (P := fun _ y => Accounted (update s.book n _) y) ?_ fun d hd => ?_
    · have hcredit : credited (update s.book n { s.book n with bumped := true }) (s.fiber g).pc = true := by
        rw [credited_of_call hcall, hself]
      refine ⟨fun _ => hcredit, fun _ => hcredit, ?_⟩
      rw [if_pos ⟨hcredit, hspent⟩]
      show (s.fiber g).wakePending + 1 = 1
      rw [hzero]
    · refine (hC.fiber d).congr fun m hm => ?_
      rw [hother m]
      -- A job has one caller.
      rintro rfl
      exact hd ((hI.call d m hm).2.symm.trans hg)
  · by_cases hv : v = w
    · rw [hv, show (s.wakeStep w n hub g .bump).worker w = .wake n hub g .claim from State.goto_self ..]
      exact ⟨hg, by rw [show (s.wakeStep w n hub g .bump).book n = _ from hself]⟩
    · rw [show (s.wakeStep w n hub g .bump).worker v = s.worker v from State.goto_of_ne _ _ hv]
      refine (hC.worker v).congr (fun m hm => ⟨rfl, ?_⟩) fun m hub' d _ => by rw [hpcs]
      rw [show (s.wakeStep w n hub g .bump).book m = s.book m from hother m ?_]
      rintro rfl
      -- And one worker.
      exact hv (hI.worker_unique hm hjob)
  · by_cases hmn : m = n
    · rw [hmn]
      exact hI.done_of_past (w := w) (by rw [hw]; rfl)
    · rw [show (s.wakeStep w n hub g .bump).book m = s.book m from hother m hmn] at hm
      exact hC.done m hm
  · rw [hpcs]
    by_cases hmn : m = n
    · rw [hmn, show (s.wakeStep w n hub g .bump).book n = _ from hself] at hb
      cases hb
    · rw [show (s.wakeStep w n hub g .bump).book m = s.book m from hother m hmn] at hb
      exact hC.unbumped m hm hb

omit [Fintype S] [Fintype W] [DecidableEq W] in
theorem afterWake_pushes (n : ℕ) (hub : Bool) (d : F) : (afterWake n hub : WorkerPc F).pushes d = 0 ∧
    Sound s (afterWake n hub) := by
  cases hub <;> exact ⟨rfl, trivial⟩

section

variable (hC : Credits s)
include hC

omit [Fintype S] in
theorem Credits.claim {hub : Bool} {g : F} (hw : s.worker w = .wake n hub g .claim)
    (hown : ClaimsOwn s (s.worker w)) : Credits (s.wakeStep w n hub g .claim) := by
  obtain ⟨hg, hbump⟩ : (s.job n).g = g ∧ (s.book n).bumped = true := by
    have := hC.worker w
    rwa [hw] at this
  rw [hw] at hown
  simp only [State.wakeStep]
  split
  next hparked =>
    -- The token of the park passes from the flag to the worker.
    refine hC.move ?_ ?_ ?_ ⟨hg, hbump, hown hparked⟩
    · exact State.forall_setFiber (P := fun d y => y.pc = (s.fiber d).pc) rfl fun _ _ => rfl
    · refine State.forall_setFiber (P := fun _ y => Accounted s.book y) ?_ fun d _ => hC.fiber d
      exact (hC.fiber g).goOn rfl (Nat.le_refl _) rfl rfl .inl
    · refine State.forall_setFiber (P := fun d y => y.parkedSafe.toInt + y.entries + WorkerPc.pushes d _ = _) ?_
        fun d hd => ?_
      · rw [hparked, hw, WorkerPc.pushes, if_pos rfl]
        show 0 + ((s.fiber g).entries : ℤ) + 1 = 1 + (s.fiber g).entries + 0
        omega
      · rw [hw, WorkerPc.pushes, if_neg (Ne.symm hd)]
        rfl
  next =>
    have hB : Credits (s.setBook n { s.book n with woken := true }) := hC.setBook rfl
    exact hB.goto hw (fun d => (afterWake_pushes (s := s) n hub d).1) (afterWake_pushes n hub g).2

omit [Fintype S] in
theorem Credits.enqueue {hub : Bool} {g : F} (hw : s.worker w = .wake n hub g .enqueue) :
    Credits (s.wakeStep w n hub g .enqueue) := by
  obtain ⟨-, hbump, hcall⟩ : (s.job n).g = g ∧ (s.book n).bumped = true ∧ (s.fiber g).pc.call = some n := by
    have := hC.worker w
    rwa [hw] at this
  have hB : Credits (s.setBook n { s.book n with woken := true }) := hC.setBook rfl
  have hcredit : credited (s.setBook n { s.book n with woken := true }).book (s.fiber g).pc = true := by
    rw [credited_of_call hcall, State.setBook_self]
    exact hbump
  -- And from the worker to the run queue.
  refine hB.move ?_ ?_ ?_ (afterWake_pushes n hub g).2
  · exact State.forall_setFiber (P := fun d y => y.pc = (s.fiber d).pc) rfl fun _ _ => rfl
  · refine State.forall_setFiber (P := fun _ y => Accounted (s.setBook n _).book y) ?_ fun d _ => hB.fiber d
    exact ⟨fun _ => hcredit, (hB.fiber g).found, (hB.fiber g).pending⟩
  · refine State.forall_setFiber (P := fun d y => y.parkedSafe.toInt + y.entries + WorkerPc.pushes d _ = _) ?_
      fun d hd => ?_
    · rw [(afterWake_pushes (s := s) n hub g).1, show (s.setBook n _).worker w = s.worker w from rfl, hw,
        WorkerPc.pushes, if_pos rfl]
      show (s.fiber g).parkedSafe.toInt + (((s.fiber g).entries + 1 : ℕ) : ℤ) + 0 =
        (s.fiber g).parkedSafe.toInt + ((s.fiber g).entries : ℤ) + 1
      push_cast
      omega
    · rw [(afterWake_pushes (s := s) n hub d).1, show (s.setBook n _).worker w = s.worker w from rfl, hw,
        WorkerPc.pushes, if_neg (Ne.symm hd)]
      rfl

omit [Fintype S] [DecidableEq W] in
theorem Credits.setJob {x : Job F R} {b : ℕ → Book R} (hg : x.g = (s.job n).g)
    (hdone : (s.job n).done = true → x.done = true) (hb : ∀ m, (b m).bumped = (s.book m).bumped) :
    Credits { s.setJob n x with book := b } := by
  refine hC.congr (q := s.queue) (z := s.inflight) (fun m => ?_) (fun m hm => ?_) hb
  · by_cases hmn : m = n
    · rw [hmn, State.setJob_self, hg]
    · rw [State.setJob_of_ne s x hmn]
  · by_cases hmn : m = n
    · rw [hmn] at hm ⊢
      rw [State.setJob_self]
      exact hdone hm
    · rwa [State.setJob_of_ne s x hmn]

theorem Credits.workerStep [DecidableEq S] (hI : Inv fn s) {shardOf : W → S}
    (hown : ClaimsOwn s (s.worker w)) (h : s.workerStep shardOf fn w = some t) : Credits t := by
  have hsound := hC.worker w
  unfold State.workerStep at h
  split at h
  -- Until the credit is brought, the fibers do not notice.
  next hw =>
    split at h <;> cases h
    next n rest hq =>
      exact Credits.goto (hC.congr (fun _ => rfl) (fun _ => id) fun _ => rfl) hw (fun _ => rfl) trivial
  next n hw =>
    cases h
    exact hC.goto hw (fun _ => rfl) (show (s.job n).g = (s.job n).g from rfl)
  next n hub g hw =>
    cases h
    rw [hw] at hsound
    refine Credits.goto (hC.setJob ?_ ?_ fun m => ?_) hw (fun _ => rfl) ?_
    · rfl
    · exact id
    · by_cases hm : m = n
      · rw [hm, update_self]
      · rw [update_of_ne hm]
        rfl
    · show (update s.job n _ n).g = g
      rw [update_self]
      exact hsound
  -- No credit before `done`: the job was not done until this store.
  next n hub g hw =>
    cases h
    have hfalse := (hI.caller_of_worker (w := w) (n := n) (by rw [hw]; rfl) (by rw [hw]; rfl)).1
    rw [hw] at hsound
    refine Credits.goto (hC.setJob ?_ ?_ fun _ => ?_) hw (fun _ => rfl) ⟨?_, ?_⟩
    · rfl
    · exact fun _ => rfl
    · rfl
    · show (update s.job n _ n).g = g
      rw [update_self]
      exact hsound
    · show (s.book n).bumped = false
      cases hb : (s.book n).bumped with
      | false => rfl
      | true =>
        rw [hC.done n hb] at hfalse
        cases hfalse
  -- The three accesses of `wake_safe`.
  next n hub g x hw =>
    cases h
    cases x with
    | bump => exact hC.bump hI hw
    | claim => exact hC.claim hw hown
    | enqueue => exact hC.enqueue hw
  next n hw =>
    cases h
    exact hC.goto hw (fun _ => rfl) trivial
  next n hw =>
    cases h
    refine Credits.goto (hC.setBook ?_) hw (fun _ => rfl) trivial
    rfl

theorem Credits.step [DecidableEq S] (hI : Inv fn s) {shardOf : W → S} {a : Action F S W}
    (honly : OnlyWorkers s a) (hown : OwnClaim s a) (h : OffloadJob.step shardOf fn s a = some t) : Credits t := by
  cases a with
  | call f hub shard =>
    simp only [OffloadJob.step] at h
    split at h <;> cases h
    next hpc => exact hC.newJob hI hpc
  | park f =>
    simp only [OffloadJob.step] at h
    split at h <;> cases h
    next hpc => exact hC.advance hpc rfl rfl rfl (Nat.le_refl _) rfl fun h => by cases h
  | fiber f => exact hC.fiberStep h
  | resume f =>
    simp only [OffloadJob.step] at h
    split at h
    next j hpc =>
      split at h <;> cases h
      next hpos =>
        refine hC.advance hpc rfl rfl ?_ (Nat.sub_le ..) rfl fun _ => .inr (.inr hpos)
        show (s.fiber f).parkedSafe.toInt + (((s.fiber f).entries - 1 : ℕ) : ℤ) - 0 =
          (s.fiber f).parkedSafe.toInt + ((s.fiber f).entries : ℤ) - 1
        omega
    next => cases h
  | worker w => exact hC.workerStep hI hown h
  | wake | claim | enqueue => exact honly.elim

end

theorem credits_of_reachable [DecidableEq S] {shardOf : W → S}
    (h : (offload shardOf fn).ReachableWith (fun s a => OnlyWorkers s a ∧ OwnClaim s a) s) : Credits s := by
  have hboth : Inv fn s ∧ Credits s := by
    refine h.invariant (P := fun s => Inv fn s ∧ Credits s) (fun _ hs => ⟨Inv.init hs, Credits.init hs⟩) ?_
    intro s a t hs ha hst
    exact ⟨hs.1.step hst, hs.2.step hs.1 ha.1 ha.2 hst⟩
  exact hboth.2

end Workers

end Runloom.OffloadJob
