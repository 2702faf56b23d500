import Mathlib.Algebra.Order.Field.Power
import Mathlib.Data.Int.Log
import Mathlib.Data.Rat.Floor

/-!
# Rounding to binary64

The non-negative values of binary64, as rationals, and rounding to the nearest of them, ties to even.  Infinity is
left out: nothing here is as large as `2 ^ 1024`.
-/

namespace Runloom.Binary64

/-- The nearest integer; of two equally near ones the even one. -/
def roundEven (q : ℚ) : ℤ :=
  if q - ⌊q⌋ < 1 / 2 then ⌊q⌋
  else if 1 / 2 < q - ⌊q⌋ then ⌊q⌋ + 1
  else if ⌊q⌋ % 2 = 0 then ⌊q⌋ else ⌊q⌋ + 1

/-- The weight of the last of the 53 bits is `2 ^ lastPlace q`. -/
def lastPlace (q : ℚ) : ℤ := max (Int.log 2 q) (-1022) - 52

def roundNearest (q : ℚ) : ℚ := roundEven (q / 2 ^ lastPlace q) * 2 ^ lastPlace q

section

variable {p q : ℚ} {n e : ℤ}

theorem roundEven_near (q : ℚ) : q - 1 / 2 ≤ roundEven q ∧ (roundEven q : ℚ) ≤ q + 1 / 2 := by
  have hle := Int.floor_le q
  have hlt := Int.lt_floor_add_one q
  unfold roundEven
  split_ifs <;> push_cast <;> constructor <;> linarith

theorem roundEven_intCast (n : ℤ) : roundEven n = n := by
  rw [roundEven, Int.floor_intCast, sub_self, if_pos (by norm_num)]

theorem le_roundEven (h : (n : ℚ) - 1 / 2 < q) : n ≤ roundEven q := by
  have hnear := (roundEven_near q).1
  have : (n : ℚ) - 1 < roundEven q := by linarith
  have : n - 1 < roundEven q := by exact_mod_cast this
  omega

theorem roundEven_le (h : q < (n : ℚ) + 1 / 2) : roundEven q ≤ n := by
  have hnear := (roundEven_near q).2
  have : (roundEven q : ℚ) < n + 1 := by linarith
  have : roundEven q < n + 1 := by exact_mod_cast this
  omega

theorem roundEven_mono (h : p ≤ q) : roundEven p ≤ roundEven q := by
  rcases (Int.floor_mono h).lt_or_eq with hlt | heq
  · -- Between different floors lies an integer.
    have hp : roundEven p ≤ ⌊p⌋ + 1 := by
      unfold roundEven
      split_ifs <;> omega
    have hq : ⌊q⌋ ≤ roundEven q := by
      unfold roundEven
      split_ifs <;> omega
    omega
  · unfold roundEven
    rw [← heq]
    split_ifs <;> first | omega | linarith

theorem two_zpow_pos (e : ℤ) : (0 : ℚ) < 2 ^ e := zpow_pos (by norm_num) e

theorem lt_of_lastPlace (q : ℚ) : q < 2 ^ (lastPlace q + 53) := by
  have hlog : q < 2 ^ (Int.log 2 q + 1) := by exact_mod_cast Int.lt_zpow_succ_log_self (by decide) q
  refine hlog.trans_le (zpow_le_zpow_right₀ (by norm_num) ?_)
  unfold lastPlace
  omega

theorem le_of_lastPlace (hq : 0 < q) (h : -1074 < lastPlace q) : 2 ^ (lastPlace q + 52) ≤ q := by
  have hlog : (2 : ℚ) ^ Int.log 2 q ≤ q := by exact_mod_cast Int.zpow_log_le_self (by decide) hq
  have hplace : lastPlace q + 52 = Int.log 2 q := by
    unfold lastPlace at h ⊢
    omega
  rwa [hplace]

theorem lastPlace_mono (hp : 0 < p) (h : p ≤ q) : lastPlace p ≤ lastPlace q := by
  have := Int.log_mono_right (b := 2) hp h
  unfold lastPlace
  omega

theorem lastPlace_eq (he : -1022 ≤ e) (h : 2 ^ e ≤ q) (h' : q < 2 ^ (e + 1)) : lastPlace q = e - 52 := by
  have hq : 0 < q := (two_zpow_pos e).trans_le h
  have hle : e ≤ Int.log 2 q := (Int.zpow_le_iff_le_log (by decide) hq).mp (by exact_mod_cast h)
  have hlt : Int.log 2 q < e + 1 := (Int.lt_zpow_iff_log_lt (by decide) hq).mp (by exact_mod_cast h')
  unfold lastPlace
  omega

theorem roundNearest_zero : roundNearest 0 = 0 := by
  have : roundEven 0 = 0 := roundEven_intCast 0
  rw [roundNearest, zero_div, this, Int.cast_zero, zero_mul]

theorem le_roundNearest (h : n * 2 ^ lastPlace q - 2 ^ lastPlace q / 2 < q) :
    n * 2 ^ lastPlace q ≤ roundNearest q := by
  have hpos := two_zpow_pos (lastPlace q)
  have hn : n ≤ roundEven (q / 2 ^ lastPlace q) := by
    apply le_roundEven
    rw [lt_div_iff₀ hpos]
    linarith
  exact mul_le_mul_of_nonneg_right (by exact_mod_cast hn) hpos.le

theorem roundNearest_nonneg (h : 0 ≤ q) : 0 ≤ roundNearest q := by
  have : roundEven 0 ≤ roundEven (q / 2 ^ lastPlace q) := roundEven_mono (by positivity)
  rw [show roundEven 0 = 0 from roundEven_intCast 0] at this
  exact mul_nonneg (by exact_mod_cast this) (two_zpow_pos _).le

theorem roundNearest_mono (hp : 0 ≤ p) (h : p ≤ q) : roundNearest p ≤ roundNearest q := by
  rcases hp.eq_or_lt with rfl | hp
  · rw [roundNearest_zero]
    exact roundNearest_nonneg h
  have hq := hp.trans_le h
  rcases (lastPlace_mono hp h).lt_or_eq with hlt | heq
  · -- A power of two lies between the two.
    have hplace : -1074 ≤ lastPlace p := by
      unfold lastPlace
      omega
    have hup : roundNearest p ≤ 2 ^ (lastPlace p + 53) := by
      have hpos := two_zpow_pos (lastPlace p)
      have hround : roundEven (p / 2 ^ lastPlace p) ≤ 2 ^ 53 := by
        apply roundEven_le
        rw [div_lt_iff₀ hpos]
        have := lt_of_lastPlace p
        rw [zpow_add₀ (by norm_num)] at this
        push_cast
        norm_num at this ⊢
        linarith
      rw [zpow_add₀ (by norm_num), mul_comm]
      exact mul_le_mul_of_nonneg_right (by exact_mod_cast hround) hpos.le
    have hlow : 2 ^ (lastPlace q + 52) ≤ roundNearest q := by
      have hpos := two_zpow_pos (lastPlace q)
      have hle := le_of_lastPlace hq (by omega)
      have := le_roundNearest (q := q) (n := 2 ^ 52) (by
        rw [zpow_add₀ (by norm_num), mul_comm] at hle
        push_cast
        norm_num at hle ⊢
        linarith)
      rw [zpow_add₀ (by norm_num), mul_comm]
      exact_mod_cast this
    exact hup.trans ((zpow_le_zpow_right₀ (by norm_num) (by omega)).trans hlow)
  · unfold roundNearest
    rw [← heq]
    have hpos := two_zpow_pos (lastPlace p)
    have : roundEven (p / 2 ^ lastPlace p) ≤ roundEven (q / 2 ^ lastPlace p) :=
      roundEven_mono (div_le_div_of_nonneg_right h hpos.le)
    exact mul_le_mul_of_nonneg_right (by exact_mod_cast this) hpos.le

theorem roundNearest_dyadic {m : ℕ} (hm : m < 2 ^ 53) (he : -1074 ≤ e) :
    roundNearest (m * 2 ^ e) = m * 2 ^ e := by
  rcases Nat.eq_zero_or_pos m with rfl | hpos
  · rw [Nat.cast_zero, zero_mul, roundNearest_zero]
  have hq : (0 : ℚ) < m * 2 ^ e := mul_pos (by exact_mod_cast hpos) (two_zpow_pos e)
  have hlt : (m : ℚ) * 2 ^ e < 2 ^ (53 + e) := by
    rw [zpow_add₀ (by norm_num)]
    exact mul_lt_mul_of_pos_right (by exact_mod_cast hm) (two_zpow_pos e)
  have hlog := (Int.lt_zpow_iff_log_lt (b := 2) (by decide) hq).mp (by exact_mod_cast hlt)
  -- The last place is at most `e`, so the value is a whole number of them.
  obtain ⟨k, hk⟩ : ∃ k : ℕ, e = lastPlace (m * 2 ^ e) + k := by
    refine ⟨(e - lastPlace (m * 2 ^ e)).toNat, ?_⟩
    unfold lastPlace
    omega
  have hint : (m : ℚ) * 2 ^ e / 2 ^ lastPlace (m * 2 ^ e) = ((m * 2 ^ k : ℕ) : ℤ) := by
    rw [div_eq_iff (two_zpow_pos _).ne']
    nth_rewrite 1 [hk]
    rw [zpow_add₀ (by norm_num), zpow_natCast]
    push_cast
    ring
  rw [roundNearest, hint, roundEven_intCast, ← hint, div_mul_cancel₀ _ (two_zpow_pos _).ne']

theorem roundNearest_natCast {m : ℕ} (hm : m < 2 ^ 53) : roundNearest m = m := by
  have := roundNearest_dyadic (e := 0) hm (by decide)
  rwa [zpow_zero, mul_one] at this

theorem roundNearest_idem (h : 0 ≤ q) : roundNearest (roundNearest q) = roundNearest q := by
  have hpos := two_zpow_pos (lastPlace q)
  have hplace : -1074 ≤ lastPlace q := by
    unfold lastPlace
    omega
  have hle : roundEven (q / 2 ^ lastPlace q) ≤ 2 ^ 53 := by
    apply roundEven_le
    rw [div_lt_iff₀ hpos]
    have := lt_of_lastPlace q
    rw [zpow_add₀ (by norm_num)] at this
    push_cast
    norm_num at this ⊢
    linarith
  have hnonneg : 0 ≤ roundEven (q / 2 ^ lastPlace q) := by
    rw [← roundEven_intCast 0]
    exact roundEven_mono (by positivity)
  obtain ⟨m, hm⟩ := Int.eq_ofNat_of_zero_le hnonneg
  rw [hm] at hle
  rw [roundNearest.eq_1 q, hm]
  rcases (show m ≤ 2 ^ 53 by exact_mod_cast hle).lt_or_eq with hlt | rfl
  · exact_mod_cast roundNearest_dyadic hlt hplace
  -- A carry out of the last bit.
  · have hcarry : ((2 ^ 53 : ℕ) : ℚ) * 2 ^ lastPlace q = ((2 ^ 52 : ℕ) : ℚ) * 2 ^ (lastPlace q + 1) := by
      rw [zpow_add₀ (by norm_num)]
      push_cast
      ring
    have := roundNearest_dyadic (m := 2 ^ 52) (e := lastPlace q + 1) (by decide) (by omega)
    rw [← hcarry] at this
    exact_mod_cast this

/-- The relative error of a rounding, away from the subnormals. -/
theorem roundNearest_ge (h : 2 ^ (-1022 : ℤ) ≤ q) : q * (1 - 2 ^ (-53 : ℤ)) ≤ roundNearest q := by
  have hq : 0 < q := (two_zpow_pos _).trans_le h
  have hpos := two_zpow_pos (lastPlace q)
  have hlog : -1022 ≤ Int.log 2 q := (Int.zpow_le_iff_le_log (by decide) hq).mp (by exact_mod_cast h)
  have hle : 2 ^ (lastPlace q + 52) ≤ q := by
    have := Int.zpow_log_le_self (b := 2) (by decide) hq
    rw [lastPlace, max_eq_left hlog, sub_add_cancel]
    exact_mod_cast this
  have hnear := (roundEven_near (q / 2 ^ lastPlace q)).1
  have hmul := mul_le_mul_of_nonneg_right hnear hpos.le
  rw [sub_mul, div_mul_cancel₀ _ hpos.ne'] at hmul
  rw [zpow_add₀ (by norm_num)] at hle
  rw [roundNearest]
  norm_num at hle hmul ⊢
  linarith

theorem natCast_le_roundNearest {t : ℕ} (ht : t < 2 ^ 53) (h : t * (1 - 2 ^ (-54 : ℤ)) < q) :
    (t : ℚ) ≤ roundNearest q := by
  rcases le_or_gt (t : ℚ) q with hge | hlt
  · rw [← roundNearest_natCast ht]
    exact roundNearest_mono (Nat.cast_nonneg t) hge
  have htpos : (0 : ℚ) < t := by
    rcases Nat.eq_zero_or_pos t with rfl | hpos
    · norm_num at h hlt
      linarith
    · exact_mod_cast hpos
  -- `2 ^ e ≤ t < 2 ^ (e + 1)`
  obtain ⟨e, he, hlo, hhi⟩ : ∃ e : ℕ, e ≤ 52 ∧ 2 ^ e ≤ t ∧ t < 2 ^ (e + 1) :=
    ⟨Nat.log 2 t, Nat.lt_succ_iff.mp (Nat.log_lt_of_lt_pow (by exact_mod_cast htpos.ne') ht),
      Nat.pow_log_le_self 2 (by exact_mod_cast htpos.ne'), Nat.lt_pow_succ_log_self (by decide) t⟩
  have hpow : (2 : ℚ) ^ e * 2 ^ (-54 : ℤ) = 2 ^ ((e : ℤ) - 53) / 2 := by
    rw [zpow_sub₀ (by norm_num), zpow_natCast]
    norm_num
    ring
  rcases le_or_gt (2 ^ e) q with hbig | hsmall
  · have hplace : lastPlace q = e - 52 := by
      refine lastPlace_eq (by omega) (by exact_mod_cast hbig) (hlt.trans ?_)
      exact_mod_cast hhi
    have hscale : ((t * 2 ^ (52 - e) : ℕ) : ℤ) * (2 : ℚ) ^ lastPlace q = t := by
      rw [hplace, zpow_sub₀ (by norm_num), zpow_natCast]
      have : (2 : ℚ) ^ (52 - e) * 2 ^ e = 2 ^ 52 := by rw [← pow_add, Nat.sub_add_cancel he]
      push_cast
      rw [mul_assoc, ← mul_div_assoc, this]
      norm_num
    rw [← hscale]
    refine le_roundNearest ?_
    rw [hscale, hplace]
    have htwo : (2 : ℚ) ^ ((e : ℤ) - 52) = 2 * 2 ^ ((e : ℤ) - 53) := by
      rw [show (e : ℤ) - 52 = 1 + (e - 53) by ring, zpow_add₀ (by norm_num), zpow_one]
    have hhi : (t : ℚ) < 2 * 2 ^ e := by
      rw [← pow_succ']
      exact_mod_cast hhi
    have hmul := mul_lt_mul_of_pos_right hhi (two_zpow_pos (-54))
    rw [mul_assoc, hpow, mul_div_cancel₀ _ two_ne_zero] at hmul
    rw [mul_sub, mul_one] at h
    rw [htwo, mul_div_cancel_left₀ _ two_ne_zero]
    exact (sub_lt_sub_left hmul _).trans h
  · -- Just below a power of two the places are half as wide; only the power itself is that near.
    have heq : t = 2 ^ e := by
      by_contra hne
      have hsucc : (2 : ℚ) ^ e + 1 ≤ t := by exact_mod_cast Nat.lt_of_le_of_ne hlo (Ne.symm hne)
      have htq : (t : ℚ) < 9007199254740992 := by exact_mod_cast ht
      norm_num at h
      linarith
    have heq : (t : ℚ) = 2 ^ e := by exact_mod_cast heq
    rw [heq, mul_sub, mul_one, hpow] at h
    have hplace : lastPlace q = e - 1 - 52 := by
      refine lastPlace_eq (by omega) ?_ ?_
      · have hhalf : (2 : ℚ) ^ ((e : ℤ) - 1) = 2 ^ 52 * 2 ^ ((e : ℤ) - 53) := by
          rw [show (e : ℤ) - 1 = 52 + (e - 53) by ring, zpow_add₀ (by norm_num)]
          norm_num
        have hfull : (2 : ℚ) ^ e = 2 ^ 53 * 2 ^ ((e : ℤ) - 53) := by
          rw [← zpow_natCast, show (e : ℤ) = 53 + (e - 53) by ring, zpow_add₀ (by norm_num), add_sub_cancel_left]
          norm_num
        have := two_zpow_pos ((e : ℤ) - 53)
        rw [hhalf]
        rw [hfull] at h
        norm_num at h ⊢
        linarith
      · rw [sub_add_cancel]
        exact_mod_cast hsmall
    have hscale : ((2 ^ 53 : ℤ) : ℚ) * 2 ^ lastPlace q = t := by
      rw [heq, hplace, show (e : ℤ) - 1 - 52 = e - 53 by ring, zpow_sub₀ (by norm_num), zpow_natCast]
      norm_num
      ring
    rw [← hscale]
    refine le_roundNearest ?_
    rw [hscale, hplace, heq, show (e : ℤ) - 1 - 52 = e - 53 by ring]
    exact h

end

/-! ## The values -/

/-- A finite value that is not negative. -/
structure Double where
  val : ℚ
  nonneg : 0 ≤ val
  rounded : roundNearest val = val

namespace Double

instance : LE Double := ⟨fun a b => a.val ≤ b.val⟩

instance (a b : Double) : Decidable (a ≤ b) := inferInstanceAs (Decidable (_ ≤ (_ : ℚ)))

def ofRat (q : ℚ) (h : 0 ≤ q) : Double := ⟨roundNearest q, roundNearest_nonneg h, roundNearest_idem h⟩

def ofNat (n : ℕ) : Double := ofRat n (Nat.cast_nonneg n)

def mul (a b : Double) : Double := ofRat (a.val * b.val) (mul_nonneg a.nonneg b.nonneg)

/-- The conversion to an integer. -/
def trunc (a : Double) : ℕ := ⌊a.val⌋₊

end Double

end Runloom.Binary64
