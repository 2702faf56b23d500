import Mathlib.Algebra.BigOperators.Ring.Finset
import Mathlib.Data.Fintype.BigOperators
import Runloom.OffloadJob.Model
import Runloom.Transition.Update

/-!
# The jobs of the blocking pool: lifetime

From its enqueue on a job is in one queue, with one worker, or through, and `done` is set from the moment when the
worker is past it.
-/

namespace Runloom.OffloadJob

open Transition State List

def Pc.call {S : Type*} : Pc S → Option ℕ
  | .running => none
  | .counting n _ | .enqueuing n _ => some n
  | .check j | .store j | .recheck j | .abort j | .parked j | .eat j | .test j => j

/-- The stage of the job that the fiber is about to count, or to enqueue. -/
def Pc.stage {S : Type*} : Pc S → Option Stage
  | .counting _ _ => some .made
  | .enqueuing _ _ => some .counted
  | _ => none

def Stage.live : Stage → ℤ
  | .enqueued => 1
  | _ => 0

def Stage.through : Stage → ℤ
  | .completed => 1
  | _ => 0

/-- Whether the job counts for `bp_inflight`. -/
def Stage.pending : Stage → ℤ
  | .counted | .enqueued => 1
  | _ => 0

namespace WorkerPc

variable {F : Type*}

def job : WorkerPc F → Option ℕ
  | .idle => none
  | .took n | .run n _ _ | .ran n _ _ | .wake n _ _ _ | .poke n | .decrement n => some n

/-- The job whose function has returned, before the store of `done`. -/
def returned : WorkerPc F → Option ℕ
  | .ran n _ _ => some n
  | _ => none

/-- The job whose `done` is stored. -/
def past : WorkerPc F → Option ℕ
  | .wake n _ _ _ | .poke n | .decrement n => some n
  | _ => none

/-- The job whose caller is woken, before the decrement of `bp_inflight`. -/
def leaving : WorkerPc F → Option ℕ
  | .poke n | .decrement n => some n
  | _ => none

theorem job_of_returned {c : WorkerPc F} {n : ℕ} (h : c.returned = some n) : c.job = some n := by
  cases c with
  | ran => exact h
  | _ => cases h

end WorkerPc

def about (n : ℕ) (j : Option ℕ) : ℤ := if j = some n then 1 else 0

@[simp] theorem about_none (n : ℕ) : about n none = 0 := rfl

@[simp] theorem about_self (n : ℕ) : about n (some n) = 1 := if_pos rfl

theorem about_of_ne {n m : ℕ} (h : m ≠ n) : about m (some n) = 0 := if_neg fun he => h (Option.some.inj he).symm

theorem about_nonneg (n : ℕ) (j : Option ℕ) : 0 ≤ about n j := by
  unfold about
  split <;> omega

variable {F S W R : Type*} {fn : ℕ → R} {s t : State F S W R} {f : F} {i : S} {w : W} {n m : ℕ}

section Sums

variable [Fintype W]

theorem sum_about_nonneg (g : WorkerPc F → Option ℕ) (n : ℕ) : 0 ≤ ∑ v, about n (g (s.worker v)) :=
  Finset.sum_nonneg fun _ _ => about_nonneg n _

theorem about_past_le (n : ℕ) (c : WorkerPc F) : about n c.past ≤ about n c.job := by
  cases c with
  | wake | poke | decrement => exact le_refl _
  | _ => exact about_nonneg n _

theorem about_returned_le (n : ℕ) (c : WorkerPc F) : about n c.returned ≤ about n c.job := by
  cases c with
  | ran => exact le_refl _
  | _ => exact about_nonneg n _

theorem about_leaving_le (n : ℕ) (c : WorkerPc F) : about n c.leaving ≤ about n c.job := by
  cases c with
  | poke | decrement => exact le_refl _
  | _ => exact about_nonneg n _

theorem sum_about_lt {g : WorkerPc F → Option ℕ} (hle : ∀ c, about n (g c) ≤ about n c.job)
    (hw : (s.worker w).job = some n) (hg : g (s.worker w) = none) :
    ∑ v, about n (g (s.worker v)) < ∑ v, about n (s.worker v).job := by
  refine Finset.sum_lt_sum (fun v _ => hle _) ⟨w, Finset.mem_univ w, ?_⟩
  rw [hw, hg, about_none, about_self]
  exact Int.one_pos

theorem sum_past_le (n : ℕ) : ∑ v, about n (s.worker v).past ≤ ∑ v, about n (s.worker v).job :=
  Finset.sum_le_sum fun _ _ => about_past_le n _

end Sums

variable [Fintype S]

theorem sum_count_nonneg (s : State F S W R) (n : ℕ) : 0 ≤ ∑ i, ((s.queue i).count n : ℤ) :=
  Finset.sum_nonneg fun _ _ => Int.natCast_nonneg _

variable [Fintype W]

/-- The job is in one place, and its marks say how far its worker has come. -/
structure Tally (s : State F S W R) (n : ℕ) : Prop where
  token : ∑ i, ((s.queue i).count n : ℤ) + ∑ w, about n (s.worker w).job = (s.book n).stage.live
  done : (s.job n).done.toInt = ∑ w, about n (s.worker w).past + (s.book n).stage.through
  runs : ((s.book n).runs : ℤ) = ∑ w, about n (s.worker w).returned + (s.job n).done.toInt
  woken : (s.book n).woken.toInt = ∑ w, about n (s.worker w).leaving + (s.book n).stage.through

structure Inv (fn : ℕ → R) (s : State F S W R) : Prop where
  tally : ∀ n, Tally s n
  made : ∀ n, s.jobs ≤ n → s.book n = .empty ∧ (s.job n).done = false
  caller : ∀ n, n < s.jobs → (s.job n).done = false → (s.fiber (s.job n).g).pc.call = some n
  call : ∀ f n, (s.fiber f).pc.call = some n → n < s.jobs ∧ (s.job n).g = f
  stage : ∀ f n x, (s.fiber f).pc.call = some n → (s.fiber f).pc.stage = some x → (s.book n).stage = x
  result : ∀ n, (s.job n).done = true ∨ (∃ w, (s.worker w).returned = some n) → (s.job n).result = some (fn n)
  returned : ∀ n r, (s.book n).returned = some r → (s.job n).done = true ∧ r = some (fn n)
  inflight : s.inflight = ∑ n ∈ Finset.range s.jobs, (s.book n).stage.pending

theorem Tally.frame (h : Tally s n) (hworker : t.worker = s.worker)
    (hqueue : ∑ i, ((t.queue i).count n : ℤ) = ∑ i, ((s.queue i).count n : ℤ))
    (hjob : (t.job n).done = (s.job n).done) (hstage : (t.book n).stage = (s.book n).stage)
    (hruns : (t.book n).runs = (s.book n).runs) (hwoken : (t.book n).woken = (s.book n).woken) : Tally t n := by
  refine ⟨?_, ?_, ?_, ?_⟩
  · rw [hqueue, hworker, hstage]
    exact h.token
  · rw [hjob, hworker, hstage]
    exact h.done
  · rw [hruns, hworker, hjob]
    exact h.runs
  · rw [hwoken, hworker, hstage]
    exact h.woken

theorem Tally.init (h : Init s) (n : ℕ) : Tally s n where
  token := by simp [h.queue, h.worker, h.book, WorkerPc.job, Book.empty, Stage.live]
  done := by simp [h.job, h.worker, h.book, WorkerPc.past, Book.empty, Stage.through]
  runs := by simp [h.job, h.worker, h.book, WorkerPc.returned, Book.empty]
  woken := by simp [h.worker, h.book, WorkerPc.leaving, Book.empty, Stage.through]

theorem Inv.init (h : Init s) : Inv fn s where
  tally := Tally.init h
  made n _ := ⟨h.book n, h.job n⟩
  caller n hn := by
    rw [h.jobs] at hn
    exact absurd hn (Nat.not_lt_zero n)
  call f n hf := by
    rw [h.fiber] at hf
    cases hf
  stage f n x hf := by
    rw [h.fiber] at hf
    cases hf
  result n hn := by
    rcases hn with hn | ⟨w, hw⟩
    · rw [h.job] at hn
      cases hn
    · rw [h.worker] at hw
      cases hw
  returned n r hr := by
    rw [h.book] at hr
    cases hr
  inflight := by
    rw [h.inflight, h.jobs]
    rfl

/-! ## What is known of a job that is on its way -/

section

variable (hI : Inv fn s)
include hI

theorem Inv.lt_jobs (hn : (s.book n).stage = .enqueued) : n < s.jobs := by
  by_contra hge
  rw [(hI.made n (by omega)).1] at hn
  cases hn

theorem Inv.enqueued_of_live
    (h : 1 ≤ ∑ i, ((s.queue i).count n : ℤ) + ∑ w, about n (s.worker w).job) : (s.book n).stage = .enqueued := by
  rw [(hI.tally n).token] at h
  cases hs : (s.book n).stage with
  | enqueued => rfl
  | _ =>
    rw [hs] at h
    exact absurd h (by decide)

theorem Inv.busy (hw : (s.worker w).job = some n) :
    (s.book n).stage = .enqueued ∧ ∑ v, about n (s.worker v).job = 1 ∧ ∑ i, ((s.queue i).count n : ℤ) = 0 := by
  have hcount := sum_count_nonneg s n
  have hone := Finset.single_le_sum (fun v _ => about_nonneg n (s.worker v).job) (Finset.mem_univ w)
  rw [hw, about_self] at hone
  have hstage := hI.enqueued_of_live (n := n) (by omega)
  have htoken := (hI.tally n).token
  rw [hstage] at htoken
  simp only [Stage.live] at htoken
  exact ⟨hstage, by omega, by omega⟩

theorem Inv.worker_unique [DecidableEq W] {v : W} (hv : (s.worker v).job = some n)
    (hw : (s.worker w).job = some n) : v = w := by
  have hone := (hI.busy hw).2.1
  refine eq_of_sum_le_one (f := fun u => about n (s.worker u).job) (Finset.mem_univ v) (Finset.mem_univ w)
    (fun u => about_nonneg n _) hone.le ?_ ?_
  · rw [hv, about_self]
    exact Int.one_pos
  · rw [hw, about_self]
    exact Int.one_pos

theorem Inv.queued (hn : n ∈ s.queue i) : (s.book n).stage = .enqueued ∧ ∑ v, about n (s.worker v).job = 0 := by
  have hjob := sum_about_nonneg (s := s) WorkerPc.job n
  have hone := Finset.single_le_sum (fun i _ => Int.natCast_nonneg ((s.queue i).count n)) (Finset.mem_univ i)
  have hpos := count_pos_iff.mpr hn
  have hstage := hI.enqueued_of_live (n := n) (by omega)
  have htoken := (hI.tally n).token
  rw [hstage] at htoken
  simp only [Stage.live] at htoken
  exact ⟨hstage, by omega⟩

theorem Inv.caller_of_sum (hstage : (s.book n).stage = .enqueued) (hpast : ∑ v, about n (s.worker v).past ≤ 0) :
    (s.job n).done = false ∧ (s.fiber (s.job n).g).pc.call = some n := by
  have hdone := (hI.tally n).done
  rw [hstage] at hdone
  have hfalse : (s.job n).done = false := by
    cases h : (s.job n).done with
    | false => rfl
    | true =>
      rw [h] at hdone
      simp only [Bool.toInt_true, Stage.through] at hdone
      omega
  exact ⟨hfalse, hI.caller n (hI.lt_jobs hstage) hfalse⟩

theorem Inv.caller_of_worker (hw : (s.worker w).job = some n) (hpast : (s.worker w).past = none) :
    (s.job n).done = false ∧ (s.fiber (s.job n).g).pc.call = some n := by
  obtain ⟨hstage, hone, -⟩ := hI.busy hw
  have hlt := sum_about_lt (about_past_le n) hw hpast
  exact hI.caller_of_sum hstage (by omega)

theorem Inv.caller_of_queued (hn : n ∈ s.queue i) :
    (s.job n).done = false ∧ (s.fiber (s.job n).g).pc.call = some n := by
  obtain ⟨hstage, hzero⟩ := hI.queued hn
  have hle := sum_past_le (s := s) n
  exact hI.caller_of_sum hstage (by omega)

theorem Inv.done_of_past (hw : (s.worker w).past = some n) : (s.job n).done = true := by
  have hdone := (hI.tally n).done
  have hone := Finset.single_le_sum (fun v _ => about_nonneg n (s.worker v).past) (Finset.mem_univ w)
  have hthrough : 0 ≤ (s.book n).stage.through := by cases (s.book n).stage <;> decide
  rw [hw, about_self] at hone
  cases h : (s.job n).done with
  | true => rfl
  | false =>
    rw [h] at hdone
    simp only [Bool.toInt_false] at hdone
    omega

theorem Inv.not_woken (hw : (s.worker w).job = some n) (hleaving : (s.worker w).leaving = none) :
    (s.book n).woken = false := by
  obtain ⟨hstage, hone, -⟩ := hI.busy hw
  have hlt := sum_about_lt (about_leaving_le n) hw hleaving
  have hwoken := (hI.tally n).woken
  rw [hstage] at hwoken
  cases h : (s.book n).woken with
  | false => rfl
  | true =>
    rw [h] at hwoken
    simp only [Bool.toInt_true, Stage.through] at hwoken
    omega

end

/-! ## The fibers -/

section Fibers

variable [DecidableEq F]

variable {x : Fiber S}

omit [Fintype S] [Fintype W] in
theorem State.forall_setFiber {P : F → Fiber S → Prop} (hf : P f x)
    (hd : ∀ d, d ≠ f → P d (s.fiber d)) (d : F) : P d ((s.setFiber f x).fiber d) := by
  by_cases h : d = f
  · subst h
    rw [State.setFiber_self]
    exact hf
  · rw [State.setFiber_of_ne s x h]
    exact hd d h

theorem Inv.setFiber (hI : Inv fn s) (hcall : x.pc.call = (s.fiber f).pc.call)
    (hstage : ∀ y, x.pc.stage = some y → (s.fiber f).pc.stage = some y) : Inv fn (s.setFiber f x) := by
  have hcalls : ∀ d, ((s.setFiber f x).fiber d).pc.call = (s.fiber d).pc.call :=
    State.forall_setFiber (P := fun d y => y.pc.call = (s.fiber d).pc.call) hcall fun _ _ => rfl
  refine { hI with
    tally := fun n => (hI.tally n).frame rfl rfl rfl rfl rfl rfl, caller := fun n hn hd => ?_,
    call := fun d n hd => ?_, stage := ?_ }
  · rw [hcalls]
    exact hI.caller n hn hd
  · rw [hcalls] at hd
    exact hI.call d n hd
  · refine State.forall_setFiber (P := fun _ z => ∀ n y, z.pc.call = some n → z.pc.stage = some y →
      (s.book n).stage = y) (fun n y hn hy => ?_) fun d _ => hI.stage d
    rw [hcall] at hn
    exact hI.stage f n y hn (hstage y hy)

theorem Inv.touch (hI : Inv fn s) (hpc : x.pc = (s.fiber f).pc) : Inv fn (s.setFiber f x) :=
  hI.setFiber (by rw [hpc]) fun y hy => by rwa [← hpc]

theorem Inv.onJob (hI : Inv fn s) (hf : (s.fiber f).pc.call = some n) {b : Book R}
    {q : S → List ℕ} {z : ℤ} (hcall : x.pc.call = some n ∨ x.pc.call = none ∧ (s.job n).done = true)
    (hstage : ∀ y, x.pc.stage = some y → b.stage = y)
    (hqueue : ∀ m, m ≠ n → ∑ i, ((q i).count m : ℤ) = ∑ i, ((s.queue i).count m : ℤ))
    (htoken : ∑ i, ((q i).count n : ℤ) - b.stage.live = ∑ i, ((s.queue i).count n : ℤ) - (s.book n).stage.live)
    (hthrough : b.stage.through = (s.book n).stage.through) (hruns : b.runs = (s.book n).runs)
    (hwoken : b.woken = (s.book n).woken)
    (hreturned : ∀ r, b.returned = some r → (s.job n).done = true ∧ r = some (fn n))
    (hz : z = s.inflight - (s.book n).stage.pending + b.stage.pending) :
    Inv fn (({ s with queue := q, inflight := z }.setBook n b).setFiber f x) := by
  obtain ⟨hlt, hg⟩ := hI.call f n hf
  have hother : ∀ m, m ≠ n → update s.book n b m = s.book m := fun m hm => update_of_ne hm ..
  have hself : update s.book n b n = b := update_self ..
  -- Of the jobs of `f` only `n` is not done.
  have hmine : ∀ m, m ≠ n → m < s.jobs → (s.job m).done = false → (s.job m).g ≠ f := by
    intro m hm hlt hd heq
    have := hI.caller m hlt hd
    rw [heq, hf] at this
    exact hm (Option.some.inj this).symm
  refine ⟨fun m => ?_, fun m hm => ?_, fun m hm hd => ?_, ?_, ?_, hI.result, fun m r hr => ?_, ?_⟩
  · by_cases hm : m = n
    · subst hm
      obtain ⟨htok, hdone, hrun, hwake⟩ := hI.tally m
      refine ⟨?_, ?_, ?_, ?_⟩ <;> simp only [State.setFiber, State.setBook, hself]
      · omega
      · rw [hthrough]
        exact hdone
      · rw [hruns]
        exact hrun
      · rw [hwoken, hthrough]
        exact hwake
    · have hbook : (({ s with queue := q, inflight := z }.setBook n b).setFiber f x).book m = s.book m := hother m hm
      exact (hI.tally m).frame rfl (hqueue m hm) rfl (by rw [hbook]) (by rw [hbook]) (by rw [hbook])
  · have hne : m ≠ n := Nat.ne_of_gt (Nat.lt_of_lt_of_le hlt hm)
    rw [show (_ : State F S W R).book m = s.book m from hother m hne]
    exact hI.made m hm
  · have hd' : (s.job m).done = false := hd
    show (update s.fiber f x (s.job m).g).pc.call = some m
    by_cases hmn : m = n
    · subst hmn
      rw [hg, update_self]
      refine hcall.resolve_right fun h => ?_
      rw [h.2] at hd'
      cases hd'
    · rw [update_of_ne (hmine m hmn hm hd')]
      exact hI.caller m hm hd'
  · refine State.forall_setFiber (P := fun d y => ∀ m, y.pc.call = some m → m < s.jobs ∧ (s.job m).g = d)
      (fun m hm => ?_) fun d _ => hI.call d
    rcases hcall with hc | ⟨hc, -⟩
    · rw [hc] at hm
      cases hm
      exact ⟨hlt, hg⟩
    · rw [hc] at hm
      cases hm
  · refine State.forall_setFiber (P := fun _ z => ∀ m y, z.pc.call = some m → z.pc.stage = some y →
      (update s.book n b m).stage = y) (fun m y hm hy => ?_) fun d hd m y hm hy => ?_
    · rcases hcall with hc | ⟨hc, -⟩
      · rw [hc] at hm
        cases hm
        rw [hself]
        exact hstage y hy
      · rw [hc] at hm
        cases hm
    · have hne : m ≠ n := by
        rintro rfl
        exact hd ((hI.call d m hm).2.symm.trans hg)
      rw [hother m hne]
      exact hI.stage d m y hm hy
  · rw [show (_ : State F S W R).book m = update s.book n b m from rfl] at hr
    by_cases hm : m = n
    · subst hm
      rw [hself] at hr
      exact hreturned r hr
    · rw [hother m hm] at hr
      exact hI.returned m r hr
  · show z = ∑ m ∈ Finset.range s.jobs, (update s.book n b m).stage.pending
    rw [sum_comp_update (Finset.mem_range.mpr hlt) fun b : Book R => b.stage.pending, hz, ← hI.inflight]

theorem Inv.newJob (hI : Inv fn s) {hub : Bool} {shard : S} (hpc : (s.fiber f).pc = .running) :
    Inv fn (s.call f hub shard) := by
  obtain ⟨hbook, hdone⟩ := hI.made s.jobs (Nat.le_refl _)
  have hjob : ∀ n, n ≠ s.jobs → (s.call f hub shard).job n = s.job n := fun n hn => update_of_ne hn ..
  have hjob' : (s.call f hub shard).job s.jobs = ⟨f, hub, none, false⟩ := update_self ..
  have hbooks : ∀ n, n ≠ s.jobs → (s.call f hub shard).book n = s.book n := fun n hn => update_of_ne hn ..
  have hbook' : (s.call f hub shard).book s.jobs = { Book.empty with before := (s.fiber f).wakePending } :=
    update_self ..
  have hdones : ∀ n, ((s.call f hub shard).job n).done = (s.job n).done := by
    intro n
    by_cases hn : n = s.jobs
    · rw [hn, hjob', hdone]
    · rw [hjob n hn]
  have hstages : ∀ n, ((s.call f hub shard).book n).stage = (s.book n).stage := by
    intro n
    by_cases hn : n = s.jobs
    · rw [hn, hbook', hbook]
    · rw [hbooks n hn]
  have hruns : ∀ n, ((s.call f hub shard).book n).runs = (s.book n).runs := by
    intro n
    by_cases hn : n = s.jobs
    · rw [hn, hbook', hbook]
    · rw [hbooks n hn]
  have hwoken : ∀ n, ((s.call f hub shard).book n).woken = (s.book n).woken := by
    intro n
    by_cases hn : n = s.jobs
    · rw [hn, hbook', hbook]
    · rw [hbooks n hn]
  have hf : (s.call f hub shard).fiber f = { s.fiber f with pc := .counting s.jobs shard } := update_self ..
  have hfd : ∀ d, d ≠ f → (s.call f hub shard).fiber d = s.fiber d := fun d hd => update_of_ne hd ..
  refine ⟨fun n => (hI.tally n).frame rfl rfl (hdones n) (hstages n) (hruns n) (hwoken n), fun n hn => ?_,
    fun n hn hnd => ?_, fun d n hd => ?_, fun d n y hd hy => ?_, fun n hn => ?_, fun n r hr => ?_, ?_⟩
  · have hne : n ≠ s.jobs := Nat.ne_of_gt hn
    rw [hbooks n hne, hjob n hne]
    exact hI.made n (Nat.le_of_lt hn)
  · by_cases hnj : n = s.jobs
    · subst hnj
      rw [hjob', hf]
      rfl
    · rw [hdones] at hnd
      have hcaller := hI.caller n (Nat.lt_of_le_of_ne (Nat.le_of_lt_succ hn) hnj) hnd
      -- A fiber that is in no call has no other job to wait for.
      have hgf : (s.job n).g ≠ f := by
        intro heq
        rw [heq, hpc] at hcaller
        cases hcaller
      rw [hjob n hnj, hfd _ hgf]
      exact hcaller
  · by_cases hdf : d = f
    · subst hdf
      rw [hf] at hd
      cases hd
      rw [hjob']
      exact ⟨Nat.lt_succ_self _, rfl⟩
    · rw [hfd d hdf] at hd
      obtain ⟨hlt, hg⟩ := hI.call d n hd
      rw [hjob n (Nat.ne_of_lt hlt)]
      exact ⟨Nat.lt_succ_of_lt hlt, hg⟩
  · by_cases hdf : d = f
    · subst hdf
      rw [hf] at hd hy
      cases hd
      cases hy
      rw [hbook']
      rfl
    · rw [hfd d hdf] at hd hy
      rw [hstages]
      exact hI.stage d n y hd hy
  -- No worker has a job that was not made.
  · have hnj : n ≠ s.jobs := by
      rintro rfl
      rcases hn with hn | ⟨w, hw⟩
      · rw [hjob'] at hn
        cases hn
      · exact Nat.lt_irrefl _ (hI.lt_jobs (hI.busy (WorkerPc.job_of_returned hw)).1)
    rw [hjob n hnj] at hn ⊢
    exact hI.result n hn
  · have hnj : n ≠ s.jobs := by
      rintro rfl
      rw [hbook'] at hr
      cases hr
    rw [hbooks n hnj] at hr
    rw [hjob n hnj]
    exact hI.returned n r hr
  · show s.inflight = ∑ n ∈ Finset.range (s.jobs + 1), ((s.call f hub shard).book n).stage.pending
    rw [Finset.sum_range_succ, hI.inflight, hbook']
    rw [show Stage.pending (Book.empty : Book R).stage = 0 from rfl, add_zero]
    exact Finset.sum_congr rfl fun n _ => by rw [hstages]

omit [Fintype W] [DecidableEq F] in
theorem sum_count_push [DecidableEq S] (q : S → List ℕ) (i : S) (n m : ℕ) :
    ∑ j, ((update q i (q i ++ [n]) j).count m : ℤ) = ∑ j, ((q j).count m : ℤ) + about m (some n) := by
  rw [sum_comp_update (Finset.mem_univ i) fun l : List ℕ => (l.count m : ℤ), count_append]
  by_cases hm : n = m
  · subst hm
    rw [about_self, count_singleton_self]
    push_cast
    omega
  · rw [about_of_ne (Ne.symm hm), count_eq_zero_of_not_mem fun h => hm (mem_singleton.mp h).symm]
    push_cast
    omega

theorem Inv.fiberStep [DecidableEq S] (hI : Inv fn s) (h : s.fiberStep f = some t) : Inv fn t := by
  unfold State.fiberStep at h
  simp only at h
  split at h
  · cases h
  · cases h
  -- The increment of `bp_inflight`, then the enqueue.
  next n shard hpc =>
    cases h
    have hf : (s.fiber f).pc.call = some n := by
      rw [hpc]
      rfl
    have hstage := hI.stage f n .made hf (by rw [hpc]; rfl)
    refine hI.onJob hf (.inl rfl) (fun y hy => ?_) (fun _ _ => rfl) ?_ ?_ rfl rfl (hI.returned n) ?_
    · cases hy
      rfl
    · rw [hstage]
      rfl
    · rw [hstage]
      rfl
    · rw [hstage]
      show s.inflight + 1 = s.inflight - 0 + 1
      omega
  next n shard hpc =>
    cases h
    have hf : (s.fiber f).pc.call = some n := by
      rw [hpc]
      rfl
    have hstage := hI.stage f n .counted hf (by rw [hpc]; rfl)
    refine hI.onJob hf (.inl rfl) nofun (fun m hm => ?_) ?_ ?_ rfl rfl (hI.returned n) ?_
    · rw [sum_count_push, about_of_ne hm, add_zero]
    · rw [sum_count_push, about_self, hstage]
      show _ + 1 - 1 = _ - (0 : ℤ)
      omega
    · rw [hstage]
      rfl
    · rw [hstage]
      show s.inflight = s.inflight - 1 + 1
      omega
  -- From here to the test of `done` only the handshake moves.
  next j hpc =>
    cases h
    split <;> (exact hI.setFiber (by rw [hpc]; rfl) nofun)
  next j hpc =>
    cases h
    exact hI.setFiber (by rw [hpc]; rfl) nofun
  next j hpc =>
    cases h
    split <;> (exact hI.setFiber (by rw [hpc]; rfl) nofun)
  next j hpc =>
    cases h
    split <;> (exact hI.setFiber (by rw [hpc]; rfl) nofun)
  next j hpc =>
    cases h
    exact hI.setFiber (by rw [hpc]; rfl) nofun
  next hpc =>
    cases h
    exact hI.setFiber (by rw [hpc]; rfl) nofun
  -- A caller leaves when it finds `done`, and with it the result.
  next n hpc =>
    cases h
    split
    next hdone =>
      refine hI.onJob (n := n) (by rw [hpc]; rfl) (.inr ⟨rfl, hdone⟩) nofun (fun _ _ => rfl) rfl rfl rfl rfl
        (fun r hr => ?_) (Int.sub_add_cancel ..).symm
      cases hr
      exact ⟨hdone, hI.result n (.inl hdone)⟩
    next => exact hI.setFiber (by rw [hpc]; rfl) nofun

end Fibers

/-! ## The workers -/

section Workers

variable [DecidableEq W]

omit [Fintype S] in
theorem sum_about_goto (g : WorkerPc F → Option ℕ) (w : W) (c : WorkerPc F) (m : ℕ) :
    ∑ v, about m (g (update s.worker w c v)) =
      ∑ v, about m (g (s.worker v)) - about m (g (s.worker w)) + about m (g c) :=
  sum_comp_update (Finset.mem_univ w) (fun c => about m (g c)) s.worker c

variable {c : WorkerPc F}

omit [Fintype S] [Fintype W] [DecidableEq W] in
theorem about_some_of_ne (hjob : c.job = some n) (hm : m ≠ n) :
    about m c.job = 0 ∧ about m c.past = 0 ∧ about m c.returned = 0 ∧ about m c.leaving = 0 := by
  cases c with
  | idle => cases hjob
  | took k | run k | ran k | wake k | poke k | decrement k =>
    cases hjob
    refine ⟨?_, ?_, ?_, ?_⟩ <;> first | exact about_of_ne hm | exact about_none m

theorem Tally.goto (h : Tally s m) (hworker : t.worker = update s.worker w c)
    (htoken : ∑ i, ((t.queue i).count m : ℤ) + about m c.job - (t.book m).stage.live =
      ∑ i, ((s.queue i).count m : ℤ) + about m (s.worker w).job - (s.book m).stage.live)
    (hdone : (t.job m).done.toInt - about m c.past - (t.book m).stage.through =
      (s.job m).done.toInt - about m (s.worker w).past - (s.book m).stage.through)
    (hruns : ((t.book m).runs : ℤ) - about m c.returned - (t.job m).done.toInt =
      (s.book m).runs - about m (s.worker w).returned - (s.job m).done.toInt)
    (hwoken : (t.book m).woken.toInt - about m c.leaving - (t.book m).stage.through =
      (s.book m).woken.toInt - about m (s.worker w).leaving - (s.book m).stage.through) : Tally t m := by
  obtain ⟨htok, hd, hr, hk⟩ := h
  refine ⟨?_, ?_, ?_, ?_⟩
  · rw [hworker, sum_about_goto WorkerPc.job]
    omega
  · rw [hworker, sum_about_goto WorkerPc.past]
    omega
  · rw [hworker, sum_about_goto WorkerPc.returned]
    omega
  · rw [hworker, sum_about_goto WorkerPc.leaving]
    omega

theorem Inv.onWorker (hI : Inv fn s) (hw : (s.worker w).job = some n) {j : ℕ → Job F R}
    {b : ℕ → Book R} {z : ℤ} (hjob : ∀ m, m ≠ n → j m = s.job m) (hbook : ∀ m, m ≠ n → b m = s.book m)
    (hg : (j n).g = (s.job n).g)
    (hother : ∀ m, m ≠ n → about m c.job = 0 ∧ about m c.past = 0 ∧ about m c.returned = 0 ∧ about m c.leaving = 0)
    (htoken : about n c.job - (b n).stage.live = 1 - (s.book n).stage.live)
    (hdone : (j n).done.toInt - about n c.past - (b n).stage.through =
      (s.job n).done.toInt - about n (s.worker w).past - (s.book n).stage.through)
    (hruns : ((b n).runs : ℤ) - about n c.returned - (j n).done.toInt =
      (s.book n).runs - about n (s.worker w).returned - (s.job n).done.toInt)
    (hwoken : (b n).woken.toInt - about n c.leaving - (b n).stage.through =
      (s.book n).woken.toInt - about n (s.worker w).leaving - (s.book n).stage.through)
    (hmono : (s.job n).done = true → (j n).done = true)
    (hresult : (j n).done = true ∨ c.returned = some n → (j n).result = some (fn n))
    (hreturned : (b n).returned = (s.book n).returned)
    (hz : z = s.inflight - (s.book n).stage.pending + (b n).stage.pending) :
    Inv fn ({ s with job := j, book := b, inflight := z }.goto w c) := by
  obtain ⟨hlive, -⟩ := hI.busy hw
  have hlt := hI.lt_jobs hlive
  refine ⟨fun m => ?_, fun m hm => ?_, fun m hm hd => ?_, fun d m hd => ?_, fun d m y hd hy => ?_, fun m hm => ?_,
    fun m r hr => ?_, ?_⟩
  · by_cases hm : m = n
    · subst hm
      refine (hI.tally m).goto rfl ?_ hdone hruns hwoken
      rw [hw, about_self]
      simp only [State.goto]
      omega
    · -- Another job is not the worker's, before or after.
      obtain ⟨hjob', hpast', hreturned', hleaving'⟩ := hother m hm
      obtain ⟨hjob'', hpast'', hreturned'', hleaving''⟩ := about_some_of_ne hw hm
      refine (hI.tally m).goto rfl ?_ ?_ ?_ ?_ <;> simp only [State.goto, hjob m hm, hbook m hm]
      · rw [hjob', hjob'']
      · rw [hpast', hpast'']
      · rw [hreturned', hreturned'']
      · rw [hleaving', hleaving'']
  · have hne : m ≠ n := Nat.ne_of_gt (Nat.lt_of_lt_of_le hlt hm)
    show b m = .empty ∧ (j m).done = false
    rw [hbook m hne, hjob m hne]
    exact hI.made m hm
  · have hd' : (j m).done = false := hd
    show (s.fiber (j m).g).pc.call = some m
    by_cases hmn : m = n
    · subst hmn
      rw [hg]
      refine hI.caller m hlt ?_
      rw [Bool.eq_false_iff]
      intro h
      rw [hmono h] at hd'
      cases hd'
    · rw [hjob m hmn] at hd' ⊢
      exact hI.caller m hm hd'
  · obtain ⟨hlt', hg'⟩ := hI.call d m hd
    refine ⟨hlt', ?_⟩
    show (j m).g = d
    by_cases hmn : m = n
    · subst hmn
      rw [hg, hg']
    · rw [hjob m hmn, hg']
  · have hold' := hI.stage d m y hd hy
    show (b m).stage = y
    by_cases hmn : m = n
    · -- A job that a worker has is not the caller's to count or to enqueue.
      subst hmn
      rw [hlive] at hold'
      subst hold'
      have hy' : (s.fiber d).pc.stage = some .enqueued := hy
      cases hp : (s.fiber d).pc <;> rw [hp] at hy' <;> cases hy'
    · rw [hbook m hmn]
      exact hold'
  · show (j m).result = some (fn m)
    by_cases hmn : m = n
    · subst hmn
      refine hresult (hm.imp id fun ⟨v, hv⟩ => ?_)
      by_cases hvw : v = w
      · subst hvw
        rwa [State.goto_self] at hv
      · -- Two workers do not have one job.
        rw [State.goto_of_ne _ _ hvw] at hv
        exact absurd (hI.worker_unique (WorkerPc.job_of_returned hv) hw) hvw
    · rw [hjob m hmn]
      refine hI.result m (hm.imp (fun h => ?_) fun ⟨v, hv⟩ => ⟨v, ?_⟩)
      · rwa [show (_ : State F S W R).job m = s.job m from hjob m hmn] at h
      · by_cases hvw : v = w
        · subst hvw
          rw [State.goto_self] at hv
          have := (hother m hmn).2.2.1
          rw [hv, about_self] at this
          cases this
        · rwa [State.goto_of_ne _ _ hvw] at hv
  · have hr' : (b m).returned = some r := hr
    show (j m).done = true ∧ _
    by_cases hmn : m = n
    · subst hmn
      rw [hreturned] at hr'
      obtain ⟨hd, hr''⟩ := hI.returned m r hr'
      exact ⟨hmono hd, hr''⟩
    · rw [hbook m hmn] at hr'
      rw [hjob m hmn]
      exact hI.returned m r hr'
  · show z = ∑ m ∈ Finset.range s.jobs, (b m).stage.pending
    have hrest : ∑ m ∈ (Finset.range s.jobs).erase n, (b m).stage.pending =
        ∑ m ∈ (Finset.range s.jobs).erase n, (s.book m).stage.pending :=
      Finset.sum_congr rfl fun m hm => by rw [hbook m (Finset.ne_of_mem_erase hm)]
    rw [hz, hI.inflight, ← Finset.add_sum_erase _ _ (Finset.mem_range.mpr hlt),
      ← Finset.add_sum_erase _ (fun m => (b m).stage.pending) (Finset.mem_range.mpr hlt), hrest]
    omega

theorem Inv.pop [DecidableEq S] (hI : Inv fn s) {rest : List ℕ} (hw : s.worker w = .idle)
    (hq : s.queue i = n :: rest) :
    Inv fn ({ s with queue := update s.queue i rest }.goto w (.took n)) := by
  refine { hI with tally := fun m => ?_, result := fun m hm => ?_ }
  · refine (hI.tally m).goto rfl ?_ (by rw [hw]; rfl) (by rw [hw]; rfl) (by rw [hw]; rfl)
    show ∑ j, ((update s.queue i rest j).count m : ℤ) + about m (some n) - (s.book m).stage.live =
      ∑ j, ((s.queue j).count m : ℤ) + about m (s.worker w).job - (s.book m).stage.live
    rw [hw, sum_comp_update (Finset.mem_univ i) fun l : List ℕ => (l.count m : ℤ), hq,
      show (WorkerPc.idle : WorkerPc F).job = none from rfl, about_none]
    by_cases hm : n = m
    · subst hm
      rw [count_cons_self, about_self]
      push_cast
      omega
    · rw [count_cons_of_ne hm, about_of_ne (Ne.symm hm)]
      omega
  · refine hI.result m (hm.imp id fun ⟨v, hv⟩ => ⟨v, ?_⟩)
    by_cases hvw : v = w
    · subst hvw
      rw [State.goto_self] at hv
      cases hv
    · rwa [State.goto_of_ne _ _ hvw] at hv

theorem Inv.goOn (hI : Inv fn s) (hw : (s.worker w).job = some n) {b : ℕ → Book R}
    (hjob : c.job = some n) (hpast : c.past = (s.worker w).past) (hreturned : c.returned = (s.worker w).returned)
    (hbook : ∀ m, m ≠ n → b m = s.book m)
    (hwoken : (b n).woken.toInt - about n c.leaving = (s.book n).woken.toInt - about n (s.worker w).leaving)
    (hb : (b n).stage = (s.book n).stage ∧ (b n).runs = (s.book n).runs ∧ (b n).returned = (s.book n).returned) :
    Inv fn ({ s with book := b }.goto w c) := by
  obtain ⟨hstage, hruns, hret⟩ := hb
  refine hI.onWorker hw (fun _ _ => rfl) hbook rfl (fun m hm => about_some_of_ne hjob hm) ?_ ?_ ?_ ?_ id
    (fun h => hI.result n ?_) hret ?_
  · rw [hjob, about_self, hstage]
  · rw [hpast, hstage]
  · rw [hreturned, hruns]
  · rw [hstage, hwoken]
  -- The result is that of the call, if the function has returned.
  · refine h.imp id fun h => ⟨w, ?_⟩
    rw [← hreturned, h]
  · rw [hstage]
    exact (Int.sub_add_cancel ..).symm

omit [Fintype S] [Fintype W] [DecidableEq W] in
theorem afterWake_job (n : ℕ) (hub : Bool) : (afterWake n hub : WorkerPc F).job = some n ∧
    (afterWake n hub : WorkerPc F).past = some n ∧ (afterWake n hub : WorkerPc F).returned = none ∧
    (afterWake n hub : WorkerPc F).leaving = some n := by
  cases hub <;> exact ⟨rfl, rfl, rfl, rfl⟩

variable [DecidableEq F]

theorem Inv.wakeStep (hI : Inv fn s) {hub : Bool} {g : F} {x : Wake} (hw : s.worker w = .wake n hub g x) :
    Inv fn (s.wakeStep w n hub g x) := by
  have hjob : (s.worker w).job = some n := by
    rw [hw]
    rfl
  have hpast : some n = (s.worker w).past := by
    rw [hw]
    rfl
  have hreturned : none = (s.worker w).returned := by
    rw [hw]
    rfl
  have hleaving : (s.worker w).leaving = none := by
    rw [hw]
    rfl
  have hfalse := hI.not_woken hjob hleaving
  have hbook : ∀ b : Book R, ∀ m, m ≠ n → update s.book n b m = s.book m := fun b m hm =>
    update_of_ne hm ..
  -- The last access sets `woken`.
  have hset : (update s.book n { s.book n with woken := true } n).woken.toInt -
      about n (afterWake n hub : WorkerPc F).leaving = (s.book n).woken.toInt - about n (s.worker w).leaving := by
    rw [update_self, (afterWake_job n hub).2.2.2, hleaving, hfalse, about_self, about_none]
    rfl
  have hkept : ∀ b : Book R, b.stage = (s.book n).stage ∧ b.runs = (s.book n).runs ∧
      b.returned = (s.book n).returned → (update s.book n b n).stage = (s.book n).stage ∧
      (update s.book n b n).runs = (s.book n).runs ∧
      (update s.book n b n).returned = (s.book n).returned := by
    intro b hb
    rwa [update_self]
  obtain ⟨hafter, hafter', hafter'', -⟩ := afterWake_job (F := F) n hub
  cases x with
  | bump =>
    have htouch := hI.touch (f := g) (x := { s.fiber g with wakePending := (s.fiber g).wakePending + 1 }) rfl
    refine htouch.goOn hjob rfl hpast hreturned (hbook _) ?_ (hkept _ ⟨rfl, rfl, rfl⟩)
    rw [show (s.setFiber g _).worker w = s.worker w from rfl, hleaving, update_self]
    rfl
  | claim =>
    simp only [State.wakeStep]
    split
    · have htouch := hI.touch (f := g) (x := { s.fiber g with parkedSafe := false }) rfl
      refine htouch.goOn hjob rfl hpast hreturned (fun _ _ => rfl) ?_ ⟨rfl, rfl, rfl⟩
      rw [show (s.setFiber g _).worker w = s.worker w from rfl, hleaving]
      rfl
    · exact hI.goOn hjob hafter (hafter'.trans hpast) (hafter''.trans hreturned) (hbook _) hset
        (hkept _ ⟨rfl, rfl, rfl⟩)
  | enqueue =>
    have htouch := hI.touch (f := g) (x := { s.fiber g with entries := (s.fiber g).entries + 1 }) rfl
    exact htouch.goOn hjob hafter (hafter'.trans hpast) (hafter''.trans hreturned) (hbook _) hset
      (hkept _ ⟨rfl, rfl, rfl⟩)

theorem Inv.workerStep [DecidableEq S] (hI : Inv fn s) {shardOf : W → S} (h : s.workerStep shardOf fn w = some t) :
    Inv fn t := by
  unfold State.workerStep at h
  split at h
  -- The head of the queue becomes the worker's.
  next hw =>
    split at h <;> cases h
    next n rest hq => exact hI.pop hw hq
  next n hw =>
    cases h
    exact hI.goOn (b := s.book) (by rw [hw]; rfl) rfl (by rw [hw]; rfl) (by rw [hw]; rfl) (fun _ _ => rfl)
      (by rw [hw]; rfl) ⟨rfl, rfl, rfl⟩
  -- The function is run; `done` was not set before, as the worker is not past the job.
  next n hub g hw =>
    cases h
    have hjob : (s.worker w).job = some n := by
      rw [hw]
      rfl
    have hfalse := (hI.caller_of_worker hjob (by rw [hw]; rfl)).1
    refine hI.onWorker hjob (fun m hm => update_of_ne hm ..) (fun m hm => update_of_ne hm ..) ?_
      (fun m hm => about_some_of_ne rfl hm) ?_ ?_ ?_ ?_ (fun hd => ?_) (fun _ => ?_) ?_ ?_
    all_goals simp only [State.setJob, update_self]
    · rw [show (WorkerPc.ran n hub g).job = some n from rfl, about_self]
    · rw [hw]
      rfl
    · rw [hw, show (WorkerPc.ran n hub g).returned = some n from rfl, about_self,
        show (WorkerPc.run n hub g).returned = none from rfl, about_none]
      push_cast
      omega
    · rw [hw]
      rfl
    · rw [hfalse] at hd
      cases hd
    · exact (Int.sub_add_cancel ..).symm
  -- The store of `done`, after which the job counts as past.
  next n hub g hw =>
    cases h
    have hjob : (s.worker w).job = some n := by
      rw [hw]
      rfl
    have hfalse := (hI.caller_of_worker hjob (by rw [hw]; rfl)).1
    refine hI.onWorker hjob (b := s.book) (fun m hm => update_of_ne hm ..) (fun _ _ => rfl) ?_
      (fun m hm => about_some_of_ne rfl hm) (by rw [show (WorkerPc.wake n hub g .bump).job = some n from rfl, about_self])
      ?_ ?_ (by rw [hw]; rfl) (fun hd => ?_) (fun _ => ?_) rfl (Int.sub_add_cancel ..).symm
    all_goals simp only [update_self]
    · rw [hw, hfalse, show (WorkerPc.wake n hub g .bump).past = some n from rfl, about_self,
        show (WorkerPc.ran n hub g).past = none from rfl, about_none, Bool.toInt_true, Bool.toInt_false]
      omega
    · rw [hw, hfalse, show (WorkerPc.wake n hub g .bump).returned = none from rfl, about_none,
        show (WorkerPc.ran n hub g).returned = some n from rfl, about_self, Bool.toInt_true, Bool.toInt_false]
      omega
    · exact hI.result n (.inr ⟨w, by rw [hw]; rfl⟩)
  next n hub g x hw =>
    cases h
    exact hI.wakeStep hw
  next n hw =>
    cases h
    exact hI.goOn (b := s.book) (by rw [hw]; rfl) rfl (by rw [hw]; rfl) (by rw [hw]; rfl) (fun _ _ => rfl)
      (by rw [hw]; rfl) ⟨rfl, rfl, rfl⟩
  -- The decrement is the end of the job.
  next n hw =>
    cases h
    have hjob : (s.worker w).job = some n := by
      rw [hw]
      rfl
    have hstage := (hI.busy hjob).1
    have hresult := hI.result n (.inl (hI.done_of_past (by rw [hw]; rfl)))
    refine hI.onWorker hjob (j := s.job) (fun _ _ => rfl) (fun m hm => update_of_ne hm ..) rfl
      (fun m _ => ⟨rfl, rfl, rfl, rfl⟩) ?_ ?_ ?_ ?_ id (fun _ => hresult) ?_ ?_
    all_goals simp only [update_self]
    · rw [hstage]
      rfl
    · rw [hw, hstage, show (WorkerPc.decrement n : WorkerPc F).past = some n from rfl, about_self,
        show (WorkerPc.idle : WorkerPc F).past = none from rfl, about_none]
      simp only [Stage.through]
      omega
    · rw [hw]
      rfl
    · rw [hw, hstage, show (WorkerPc.decrement n : WorkerPc F).leaving = some n from rfl, about_self,
        show (WorkerPc.idle : WorkerPc F).leaving = none from rfl, about_none]
      simp only [Stage.through]
      omega
    · rw [hstage]
      simp only [Stage.pending]
      omega

theorem Inv.step [DecidableEq S] (hI : Inv fn s) {shardOf : W → S} {a : Action F S W}
    (h : OffloadJob.step shardOf fn s a = some t) : Inv fn t := by
  cases a with
  | call f hub shard =>
    simp only [OffloadJob.step] at h
    split at h <;> cases h
    next hpc => exact hI.newJob hpc
  | park f =>
    simp only [OffloadJob.step] at h
    split at h <;> cases h
    next hpc => exact hI.setFiber (by rw [hpc]; rfl) nofun
  | fiber f => exact hI.fiberStep h
  | resume f =>
    simp only [OffloadJob.step] at h
    split at h
    next j hpc =>
      split at h <;> cases h
      exact hI.setFiber (by rw [hpc]; rfl) nofun
    next => cases h
  | worker w => exact hI.workerStep h
  | wake f credit =>
    cases h
    exact hI.touch rfl
  | claim f =>
    simp only [OffloadJob.step] at h
    split at h <;> cases h
    split <;> exact hI.touch rfl
  | enqueue f =>
    simp only [OffloadJob.step] at h
    split at h <;> cases h
    exact hI.touch rfl

theorem inv_of_reachable [DecidableEq S] {shardOf : W → S} (h : (offload shardOf fn).Reachable s) : Inv fn s :=
  h.invariant (fun _ hs => Inv.init hs) fun _ _ _ hI _ hs => hI.step hs

end Workers

/-! ## Runs and returns -/

section

variable (hI : Inv fn s)
include hI

theorem Inv.runs_le_one (n : ℕ) : (s.book n).runs ≤ 1 := by
  have hruns := (hI.tally n).runs
  have hdone := (hI.tally n).done
  by_cases hran : ∃ w, (s.worker w).returned = some n
  -- A worker between the call and the store of `done` is the only one that has the job.
  · obtain ⟨w, hw⟩ := hran
    have hpast : (s.worker w).past = none := by
      cases hp : s.worker w <;> rw [hp] at hw <;> cases hw
      rfl
    have hjob := WorkerPc.job_of_returned hw
    rw [(hI.caller_of_worker hjob hpast).1] at hruns
    have hle : ∑ v, about n (s.worker v).returned ≤ ∑ v, about n (s.worker v).job :=
      Finset.sum_le_sum fun v _ => about_returned_le n _
    rw [(hI.busy hjob).2.1] at hle
    simp only [Bool.toInt_false] at hruns
    omega
  · have hzero : ∑ v, about n (s.worker v).returned = 0 :=
      Finset.sum_eq_zero fun v _ => if_neg fun hv => hran ⟨v, hv⟩
    rw [hzero] at hruns
    cases hd : (s.job n).done <;> rw [hd] at hruns <;> simp only [Bool.toInt_true, Bool.toInt_false] at hruns <;> omega

theorem Inv.runs_of_done (hd : (s.job n).done = true) : (s.book n).runs = 1 := by
  have hruns := (hI.tally n).runs
  have hle := hI.runs_le_one n
  have hnonneg := sum_about_nonneg (s := s) WorkerPc.returned n
  rw [hd, Bool.toInt_true] at hruns
  omega

theorem Inv.of_completed (hn : (s.book n).stage = .completed) :
    (s.book n).runs = 1 ∧ (s.book n).woken = true := by
  have hdone := (hI.tally n).done
  have hwoken := (hI.tally n).woken
  have hpast := sum_about_nonneg (s := s) WorkerPc.past n
  have hleaving := sum_about_nonneg (s := s) WorkerPc.leaving n
  rw [hn] at hdone hwoken
  simp only [Stage.through] at hdone hwoken
  constructor
  · apply hI.runs_of_done
    cases hd : (s.job n).done with
    | true => rfl
    | false =>
      rw [hd, Bool.toInt_false] at hdone
      omega
  · cases hk : (s.book n).woken with
    | true => rfl
    | false =>
      rw [hk, Bool.toInt_false] at hwoken
      omega

theorem Inv.of_enqueued (hn : (s.book n).stage = .enqueued) :
    (∃ i, n ∈ s.queue i) ∨ ∃ w, (s.worker w).job = some n := by
  have htoken := (hI.tally n).token
  rw [hn] at htoken
  simp only [Stage.live] at htoken
  by_cases hqueue : ∃ i, n ∈ s.queue i
  · exact .inl hqueue
  -- In no queue: then the token of the job is with a worker.
  · have hzero : ∑ i, ((s.queue i).count n : ℤ) = 0 :=
      Finset.sum_eq_zero fun i _ => by rw [count_eq_zero_of_not_mem fun h => hqueue ⟨i, h⟩, Int.ofNat_zero]
    obtain ⟨w, -, hw⟩ := exists_pos_of_sum_pos (f := fun w => about n (s.worker w).job) (S := Finset.univ) (by omega)
    refine .inr ⟨w, ?_⟩
    by_contra hne
    rw [about, if_neg hne] at hw
    exact absurd hw (lt_irrefl 0)

theorem Inv.inflight_eq_card : s.inflight = ((Finset.range s.jobs).filter fun n =>
    (s.book n).stage = .counted ∨ (s.book n).stage = .enqueued).card := by
  rw [hI.inflight, Finset.natCast_card_filter]
  refine Finset.sum_congr rfl fun n _ => ?_
  cases (s.book n).stage <;> rfl

end

end Runloom.OffloadJob
