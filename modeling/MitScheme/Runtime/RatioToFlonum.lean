import MitScheme.Lib.Rounding
import MitScheme.Runtime.Rationals
import Mathlib.Algebra.Order.Field.Basic
import Mathlib.Tactic.FieldSimp

/-!
# The nearest flonum of a ratio

The general path of `ratio->flonum`. The ratio is scaled until it lies between a half and one, and what it is then in
units of the last bit is rounded to an integer.
-/

namespace MitScheme.Arith

open Rounding

/-- `flo:significand-digits-base-2`. A flonum has a bit behind its first one. -/
abbrev SignificandDigits := { p : Nat // 2 ≤ p }

def integerLengthInBits (n : Int) : Int := Nat.size n.natAbs

def integerShiftLeft (n k : Int) : Int := n * 2 ^ k.toNat

/-- `positive-case` in `int:round`. -/
def roundPositive (n d : Int) : Int :=
  let q := n.tdiv d
  let r2 := 2 * n.tmod d
  if d < r2 ∨ (r2 = d ∧ ¬q.tmod 2 = 0) then q + 1 else q

def intRound (n d : Int) : Int :=
  if n < 0 then
    if d < 0 then roundPositive (-n) (-d) else -roundPositive (-n) d
  else
    if d < 0 then -roundPositive n (-d) else roundPositive n d

/-- `int:flonum-integer-limit` -/
def flonumIntegerLimit (p : SignificandDigits) : Int := 2 ^ p.val

/-- `step3`, up to what it hands to the last step. -/
def ratioStep3 (p : SignificandDigits) (n d e : Int) : Int × Int :=
  let n := intRound (integerShiftLeft n p.val) d
  if n = flonumIntegerLimit p then (n.tdiv 2, e + 1) else (n, e)

/-- `step2` -/
def ratioStep2 (p : SignificandDigits) (k n d : Int) : Int × Int :=
  if n < d then ratioStep3 p n d (k - p.val) else ratioStep3 p n (2 * d) (k + 1 - p.val)

/-- `step1` -/
def ratioStep1 (p : SignificandDigits) (k n d : Int) : Int × Int :=
  if k < 0 then ratioStep2 p k (integerShiftLeft n (-k)) d else ratioStep2 p k n (integerShiftLeft d k)

/-- `n>0` in `ratio->flonum`: the significand and the exponent that `step4` is given. -/
def ratioSteps (p : SignificandDigits) (n d : Int) : Int × Int :=
  ratioStep1 p (integerLengthInBits n - integerLengthInBits d) n d

theorem half_iff {d : Int} (hd : 0 < d) (z : Int) :
    (|(z : ℚ) / d| ≤ 1 / 2 ↔ 2 * |z| ≤ d) ∧ (|(z : ℚ) / d| = 1 / 2 ↔ 2 * |z| = d) := by
  have hdq : (0 : ℚ) < d := by exact_mod_cast hd
  rw [abs_div, abs_of_pos hdq, div_le_div_iff₀ hdq two_pos, div_eq_div_iff hdq.ne' two_ne_zero]
  constructor
  · rw [mul_comm, one_mul]
    exact_mod_cast Iff.rfl
  · rw [mul_comm, one_mul]
    exact_mod_cast Iff.rfl

theorem even_iff_tmod (q : Int) : Even q ↔ q.tmod 2 = 0 := by
  rw [even_iff_two_dvd, Int.dvd_iff_tmod_eq_zero]

theorem intRound_half {n d : Int} (hn : 0 ≤ n) (hd : 0 < d) :
    |(n : ℚ) / d - intRound n d| ≤ 1 / 2 ∧ (|(n : ℚ) / d - intRound n d| = 1 / 2 → Even (intRound n d)) := by
  have hdiv := Int.mul_ediv_add_emod n d
  have hlow := Int.emod_nonneg n hd.ne'
  have hhigh := Int.emod_lt_of_pos n hd
  rw [intRound, if_neg (by omega), if_neg (by omega), roundPositive, Int.tdiv_eq_ediv_of_nonneg hn,
    Int.tmod_eq_emod_of_nonneg hn]
  generalize n / d = q at *
  generalize n % d = r at *
  subst hdiv
  have hvalue : ∀ m : Int, ((d * q + r : Int) : ℚ) / d - m = (((q - m) * d + r : Int) : ℚ) / d := by
    intro m
    push_cast
    field_simp
    ring
  simp only [hvalue, (half_iff hd _).1, (half_iff hd _).2]
  split
  · rename_i hup
    have habs : |(q - (q + 1)) * d + r| = d - r := by
      rw [show (q - (q + 1)) * d + r = -(d - r) by ring, abs_neg, abs_of_pos (by omega)]
    refine ⟨by omega, ?_⟩
    intro hhalf
    have hodd : ¬Even q := by
      rw [even_iff_tmod]
      rcases hup with h | h
      · omega
      · exact h.2
    exact (Int.not_even_iff_odd.mp hodd).add_one
  · rename_i hdown
    have habs : |(q - q) * d + r| = r := by
      rw [sub_self, zero_mul, zero_add, abs_of_nonneg hlow]
    rw [habs]
    refine ⟨by omega, ?_⟩
    intro hhalf
    rw [even_iff_tmod]
    by_contra hodd
    exact hdown (Or.inr ⟨hhalf, hodd⟩)

/-! ## The steps -/

/-- What the last step is given stands for a number: it has the full number of bits, and it is the number rounded. -/
structure Rounded (p : SignificandDigits) (x : ℚ) (step : Int × Int) : Prop where
  le_significand : 2 ^ (p.val - 1) ≤ step.1
  significand_lt : step.1 < 2 ^ p.val
  rounds : RoundsToEven p.val x step.1 step.2

theorem ratioStep3_rounded (p : SignificandDigits) {n d : Int} (e : Int) (hd : 0 < d) (hlow : d ≤ 2 * n) (hhigh : n < d) :
    Rounded p (n / d * 2 ^ (e + p.val)) (ratioStep3 p n d e) := by
  obtain ⟨p, hp⟩ := p
  obtain ⟨k, rfl⟩ : ∃ k, p = k + 2 := ⟨p - 2, by omega⟩
  have hdq : (0 : ℚ) < d := by exact_mod_cast hd
  have hscaled : (n : ℚ) / d * 2 ^ (e + (k + 2 : Nat)) / 2 ^ e = ((integerShiftLeft n (k + 2 : Nat) : Int) : ℚ) / d := by
    rw [zpow_add₀ (by norm_num), integerShiftLeft, Int.toNat_natCast, zpow_natCast]
    push_cast
    field_simp
  have hlowq : (2 : ℚ) ^ (k + 1) ≤ ((integerShiftLeft n (k + 2 : Nat) : Int) : ℚ) / d := by
    rw [le_div_iff₀ hdq, integerShiftLeft]
    have : (2 : Int) ^ (k + 1) * d ≤ n * 2 ^ (k + 2) := by
      have := mul_le_mul_of_nonneg_left hlow (pow_nonneg (by omega : (0 : Int) ≤ 2) (k + 1))
      calc (2 : Int) ^ (k + 1) * d ≤ 2 ^ (k + 1) * (2 * n) := this
        _ = n * 2 ^ (k + 2) := by ring
    exact_mod_cast this
  have hhighq : ((integerShiftLeft n (k + 2 : Nat) : Int) : ℚ) / d < 2 ^ (k + 2) := by
    rw [div_lt_iff₀ hdq, integerShiftLeft]
    have : n * 2 ^ (k + 2) < (2 : Int) ^ (k + 2) * d := by
      rw [mul_comm]
      exact mul_lt_mul_of_pos_left hhigh (by positivity)
    exact_mod_cast this
  obtain ⟨hnear, heven⟩ := intRound_half (n := integerShiftLeft n (k + 2 : Nat)) (by
    rw [integerShiftLeft]
    have : 0 ≤ n := by omega
    positivity) hd
  have hround := roundsToEven_of_scaled (p := k + 1) (x := n / d * 2 ^ (e + (k + 2 : Nat)))
    (m := intRound (integerShiftLeft n (k + 2 : Nat)) d) (e := e)
    (by rw [hscaled]; exact hlowq) (by rw [hscaled]; exact hnear) (by rw [hscaled]; exact heven)
  have hbounds : 2 ^ (k + 1) ≤ intRound (integerShiftLeft n (k + 2 : Nat)) d ∧
      intRound (integerShiftLeft n (k + 2 : Nat)) d ≤ 2 ^ (k + 2) := by
    rw [abs_le] at hnear
    constructor
    · have : (2 : ℚ) ^ (k + 1) < intRound (integerShiftLeft n (k + 2 : Nat)) d + 1 := by linarith [hnear.2]
      exact Int.lt_add_one_iff.mp (by exact_mod_cast this)
    · have : (intRound (integerShiftLeft n (k + 2 : Nat)) d : ℚ) < 2 ^ (k + 2) + 1 := by linarith [hnear.1]
      exact Int.lt_add_one_iff.mp (by exact_mod_cast this)
  have hstep : ratioStep3 ⟨k + 2, hp⟩ n d e =
      if intRound (integerShiftLeft n (k + 2 : Nat)) d = 2 ^ (k + 2) then
        ((intRound (integerShiftLeft n (k + 2 : Nat)) d).tdiv 2, e + 1)
      else (intRound (integerShiftLeft n (k + 2 : Nat)) d, e) := rfl
  rw [hstep]
  split
  · -- Rounding carries into a new bit.
    rename_i hcarry
    rw [hcarry] at hround ⊢
    have hhalf : (2 ^ (k + 2) : Int).tdiv 2 = 2 ^ (k + 1) := by
      rw [pow_succ, Int.mul_tdiv_cancel _ (by decide)]
    rw [hhalf]
    exact ⟨le_rfl, pow_lt_pow_right₀ (by decide) (Nat.lt_succ_self (k + 1)), hround.carry⟩
  · rename_i hcarry
    exact ⟨hbounds.1, lt_of_le_of_ne hbounds.2 hcarry, hround⟩

theorem ratioStep2_rounded (p : SignificandDigits) {n d : Int} (k : Int) (hd : 0 < d) (hlow : d ≤ 2 * n)
    (hhigh : n < 2 * d) : Rounded p (n / d * 2 ^ k) (ratioStep2 p k n d) := by
  unfold ratioStep2
  split
  · rename_i hless
    have hrounded := ratioStep3_rounded p (k - p.val) hd hlow hless
    rw [sub_add_cancel] at hrounded
    exact hrounded
  · have hrounded := ratioStep3_rounded p (n := n) (d := 2 * d) (k + 1 - p.val) (by omega) (by omega) hhigh
    rw [sub_add_cancel, zpow_add_one₀ (by norm_num)] at hrounded
    have hvalue : (n : ℚ) / ((2 * d : Int) : ℚ) * (2 ^ k * 2) = n / d * 2 ^ k := by
      push_cast
      field_simp
    rw [hvalue] at hrounded
    exact hrounded

theorem size_bounds {n : Int} (h : 0 < n) : ∃ a : Nat, integerLengthInBits n = a + 1 ∧ 2 ^ a ≤ n ∧ n < 2 ^ (a + 1) := by
  have hpos : 0 < Nat.size n.natAbs := Nat.size_pos.mpr (by omega)
  have hlow := Nat.lt_size.mp (show Nat.size n.natAbs - 1 < Nat.size n.natAbs by omega)
  have hhigh := Nat.lt_size_self n.natAbs
  refine ⟨Nat.size n.natAbs - 1, by rw [integerLengthInBits]; omega, ?_, ?_⟩
  · zify at hlow
    rw [abs_of_pos h] at hlow
    exact hlow
  · rw [Nat.sub_add_cancel hpos]
    zify at hhigh
    rw [abs_of_pos h] at hhigh
    exact hhigh

/-- **The significand has all its bits, and with its exponent it is the ratio rounded to the nearest number of so many
bits, a tie to the even one.** -/
theorem ratioSteps_rounded (p : SignificandDigits) {n d : Int} (hn : 0 < n) (hd : 0 < d) :
    Rounded p (n / d) (ratioSteps p n d) := by
  obtain ⟨a, hna, hnlow, hnhigh⟩ := size_bounds hn
  obtain ⟨b, hdb, hdlow, hdhigh⟩ := size_bounds hd
  rw [ratioSteps, hna, hdb, add_sub_add_right_eq_sub, ratioStep1]
  -- Both cases scale the ratio by the same power.
  have hscale : ∀ n' d' : Int, (n' : ℚ) / d' = n / d / 2 ^ ((a : Int) - b) →
      (n' : ℚ) / d' * 2 ^ ((a : Int) - b) = n / d := by
    intro n' d' h
    rw [h, div_mul_cancel₀ _ (zpow_ne_zero _ (by norm_num))]
  split
  · obtain ⟨j, rfl⟩ : ∃ j : Nat, b = a + j := ⟨b - a, by omega⟩
    have hj : -((a : Int) - (a + j : Nat)) = j := by omega
    have hvalue := hscale (integerShiftLeft n j) d (by
      rw [← neg_neg ((a : Int) - (a + j : Nat)), hj, zpow_neg, zpow_natCast, integerShiftLeft, Int.toNat_natCast]
      push_cast
      field_simp)
    rw [hj, ← hvalue]
    apply ratioStep2_rounded p _ hd
    · rw [integerShiftLeft, Int.toNat_natCast]
      have : (2 : Int) ^ a * 2 ^ j ≤ n * 2 ^ j := mul_le_mul_of_nonneg_right hnlow (by positivity)
      rw [← pow_add] at this
      omega
    · rw [integerShiftLeft, Int.toNat_natCast]
      have : n * 2 ^ j < 2 ^ (a + 1) * 2 ^ j := mul_lt_mul_of_pos_right hnhigh (by positivity)
      rw [← pow_add, show a + 1 + j = a + j + 1 by omega] at this
      omega
  · obtain ⟨j, rfl⟩ : ∃ j : Nat, a = b + j := ⟨a - b, by omega⟩
    have hj : ((b + j : Nat) : Int) - b = j := by omega
    have hvalue := hscale n (integerShiftLeft d j) (by
      rw [hj, zpow_natCast, integerShiftLeft, Int.toNat_natCast]
      push_cast
      field_simp)
    rw [← hvalue, hj]
    apply ratioStep2_rounded p
    · rw [integerShiftLeft]
      positivity
    · rw [integerShiftLeft, Int.toNat_natCast]
      have : d * 2 ^ j < 2 ^ (b + 1) * 2 ^ j := mul_lt_mul_of_pos_right hdhigh (by positivity)
      rw [← pow_add, show b + 1 + j = b + j + 1 by omega] at this
      omega
    · rw [integerShiftLeft, Int.toNat_natCast]
      have : (2 : Int) ^ b * 2 ^ j ≤ d * 2 ^ j := mul_le_mul_of_nonneg_right hdlow (by positivity)
      rw [← pow_add] at this
      omega

theorem ratioSteps_rounded_third : ratioSteps ⟨53, by decide⟩ 1 3 = (6004799503160661, -54) ∧
    Rounded ⟨53, by decide⟩ (1 / 3) (6004799503160661, -54) := by
  have hsteps : ratioSteps ⟨53, by decide⟩ 1 3 = (6004799503160661, -54) := by decide +kernel
  have hrounded := ratioSteps_rounded ⟨53, by decide⟩ (n := 1) (d := 3) (by decide) (by decide)
  exact ⟨hsteps, by exact hrounded⟩

end MitScheme.Arith
