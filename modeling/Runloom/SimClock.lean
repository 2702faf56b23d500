import Runloom.Binary64
import Runloom.SimLedger

/-!
# The clock of the simulation

Model of `runloom_sched_logical_ns`, `runloom_sched_sim_advance_clock` and `runloom_sim_ready_next_ns`.  The clock is
a binary64 number of seconds, and the deadlines are integers in nanoseconds; `none` stands for -1.  C defines the
conversion to `long long` below `2 ^ 63` only; here it truncates every value.
-/

namespace Runloom.SimClock

open Binary64 SimLedger

/-- The literals `1e9` and `1e-9`. -/
def giga : Double := .ofNat 1000000000

def nano : Double := .ofRat (1 / 1000000000) (by norm_num)

/-- `runloom_sched_logical_ns`, and the same conversion of a sleeper's `wake_at`. -/
def logicalNs (clock : Double) : ℕ := (clock.mul giga).trunc

/-- `target_ns`, the earlier of the two; the first argument is `sleeper_ns`. -/
def targetNs : Option ℕ → Option ℕ → Option ℕ
  | none, netpollMin => netpollMin
  | some sleeper, none => some sleeper
  | some sleeper, some netpollMin => some (if sleeper < netpollMin then sleeper else netpollMin)

/-- The seconds that the clock is moved to. -/
def targetSec (sleeper : Option Double) (target : ℕ) : Double :=
  match sleeper with
  | some wakeAt => if logicalNs wakeAt = target then wakeAt else (Double.ofNat target).mul nano
  | none => (Double.ofNat target).mul nano

/-- `runloom_sched_sim_advance_clock`; `sleeper` is the first of the sleep heap. -/
def simAdvanceClock (clock : Double) (sleeper : Option Double) (netpollMin : Option ℕ) : Option (ℕ × Double) :=
  (targetNs (sleeper.map logicalNs) netpollMin).map fun target =>
    (target, if targetSec sleeper target ≤ clock then clock else targetSec sleeper target)

/-- `runloom_sim_ready_next_ns`. -/
def readyNextNs (ready : List Entry) (clock : Double) : Option ℕ :=
  ((ready.filter fun e => e.plane = .legacy ∧ (logicalNs clock : ℤ) < e.deliverAt).map (·.deliverAt.toNat)).min?

/-! ## The two products -/

variable {v w clock clock' : Double} {t : ℕ}

theorem logicalNs_mono (h : v ≤ w) : logicalNs v ≤ logicalNs w :=
  Nat.floor_mono (roundNearest_mono (mul_nonneg v.nonneg giga.nonneg) (mul_le_mul_of_nonneg_right h giga.nonneg))

theorem val_ofNat (ht : t < 2 ^ 53) : (Double.ofNat t).val = t := roundNearest_natCast ht

/-- The literal `1e-9` is above a billionth. -/
theorem val_nano : nano.val = 4835703278458517 / 2 ^ 82 := by
  have hplace : lastPlace (1 / 1000000000) = -82 :=
    lastPlace_eq (e := -30) (by decide) (by norm_num) (by norm_num)
  have hfloor : ⌊(1 / 1000000000 / 2 ^ (-82 : ℤ) : ℚ)⌋ = 4835703278458516 := by
    rw [Int.floor_eq_iff]
    norm_num
  have heven : roundEven (1 / 1000000000 / 2 ^ (-82 : ℤ)) = 4835703278458517 := by
    rw [roundEven, hfloor, if_neg (by norm_num), if_pos (by norm_num)]
    norm_num
  show roundNearest (1 / 1000000000) = _
  rw [roundNearest, hplace, heven]
  norm_num

/-- The error of the first product is made up for by that of `1e-9`. -/
theorem le_logicalNs (ht : t < 2 ^ 53) (h : (Double.ofNat t).mul nano ≤ v) : t ≤ logicalNs v := by
  rcases Nat.eq_zero_or_pos t with rfl | hpos
  · exact Nat.zero_le _
  have hpos : (1 : ℚ) ≤ t := by exact_mod_cast hpos
  have hsec : (t : ℚ) * nano.val * (1 - 2 ^ (-53 : ℤ)) ≤ v.val := by
    refine le_trans ?_ (show ((Double.ofNat t).mul nano).val ≤ v.val from h)
    show _ ≤ roundNearest ((Double.ofNat t).val * nano.val)
    rw [val_ofNat ht]
    apply roundNearest_ge
    have htiny : (2 : ℚ) ^ (-1022 : ℤ) ≤ 2 ^ (-31 : ℤ) := zpow_le_zpow_right₀ (by norm_num) (by decide)
    refine htiny.trans ?_
    rw [val_nano]
    norm_num
    linarith
  have hgiga : giga.val = 1000000000 := val_ofNat (t := 1000000000) (by decide)
  apply Nat.le_floor
  apply natCast_le_roundNearest ht
  rw [hgiga]
  rw [val_nano] at hsec
  norm_num at hsec ⊢
  linarith

theorem le_max_clock (clock sec : Double) :
    clock ≤ (if sec ≤ clock then clock else sec) ∧ sec ≤ if sec ≤ clock then clock else sec := by
  split
  next h => exact ⟨le_refl clock.val, h⟩
  next h => exact ⟨le_of_lt (not_le.mp (show ¬sec.val ≤ clock.val from h)), le_refl sec.val⟩

theorem le_logicalNs_targetSec (sleeper : Option Double) (ht : t < 2 ^ 53) : t ≤ logicalNs (targetSec sleeper t) := by
  unfold targetSec
  split
  next wakeAt =>
    split
    next hw => exact hw.ge
    next => exact le_logicalNs ht (le_refl (Double.val _))
  next => exact le_logicalNs ht (le_refl (Double.val _))

/-- After the clock was advanced to `t` it reads at least `t`. -/
theorem clock_reaches_target {sleeper : Option Double} {netpollMin : Option ℕ}
    (h : simAdvanceClock clock sleeper netpollMin = some (t, clock')) (ht : t < 2 ^ 53) :
    clock ≤ clock' ∧ t ≤ logicalNs clock' ∧ (∀ wakeAt ∈ sleeper, logicalNs wakeAt = t → wakeAt ≤ clock') ∧
    (∀ e : Entry, e.deliverAt = t → e.plane = .legacy → e.Due (logicalNs clock') .legacy) ∧
    ∀ ready, ∀ n ∈ readyNextNs ready clock', t < n := by
  obtain ⟨target, htarget, heq⟩ := Option.map_eq_some_iff.mp h
  obtain ⟨rfl, rfl⟩ := Prod.mk.inj heq
  have hclock := le_max_clock clock (targetSec sleeper target)
  generalize (if targetSec sleeper target ≤ clock then clock else targetSec sleeper target) = clock' at hclock
  obtain ⟨hforward, hsec⟩ := hclock
  have hns : target ≤ logicalNs clock' := (le_logicalNs_targetSec sleeper ht).trans (logicalNs_mono hsec)
  refine ⟨hforward, hns, fun wakeAt hs hw => ?_, fun e he hp => ⟨?_, hp⟩, fun ready n hn => ?_⟩
  · obtain rfl := Option.mem_def.mp hs
    rwa [targetSec, if_pos hw] at hsec
  · rw [he]
    exact_mod_cast hns
  · obtain ⟨e, he, rfl⟩ := List.mem_map.mp (List.min?_mem hn)
    have hfuture := (of_decide_eq_true (List.mem_filter.mp he).2).2
    omega

/-- A delivery after three tenths of a second: the clock reads exactly that. -/
theorem clock_reaches_target_tenths :
    ∃ clock', simAdvanceClock (.ofNat 0) none (some 300000000) = some (300000000, clock') ∧
      300000000 ≤ logicalNs clock' := by
  have h : simAdvanceClock (.ofNat 0) none (some 300000000) = some (300000000, _) := rfl
  exact ⟨_, h, (clock_reaches_target h (by decide)).2.1⟩

end Runloom.SimClock
