import Mathlib.Algebra.Order.Field.Power
import Mathlib.Data.Nat.Bitwise
import Mathlib.Data.Nat.Size
import Mathlib.Tactic.Linarith
import Mathlib.Tactic.Ring

/-!
# Rounding to a number of bits

Rounding to the nearest number of so many significant bits, with ties to the even one, and the way
it is done in practice: by looking at the first bit that is left out, at whether any bit below it is
set, and at the last bit that is kept. A rational is rounded by rounding it to an integer in units of the last bit.
-/

namespace Rounding

/-- Rounding to the nearest multiple of `2 ^ s`, a number halfway between two to the even one. -/
def roundAt (s n : Nat) : Nat :=
  if 2 ^ s < 2 * (n % 2 ^ s) ∨ (2 * (n % 2 ^ s) = 2 ^ s ∧ n / 2 ^ s % 2 = 1) then
    (n / 2 ^ s + 1) * 2 ^ s
  else n / 2 ^ s * 2 ^ s

/-- **Rounding to `p` significant bits.** -/
def roundBits (p n : Nat) : Nat := roundAt (Nat.size n - p) n

theorem roundAt_zero (n : Nat) : roundAt 0 n = n := by
  rw [roundAt, Nat.pow_zero, Nat.div_one, if_neg (by omega), Nat.mul_one]

theorem le_roundAt (s n : Nat) : n / 2 ^ s * 2 ^ s ≤ roundAt s n := by
  unfold roundAt
  split
  · exact Nat.mul_le_mul_right _ (Nat.le_succ _)
  · exact le_rfl

theorem mod_two_pow_succ (n s : Nat) :
    n % 2 ^ (s + 1) = (n.testBit s).toNat * 2 ^ s + n % 2 ^ s := by
  rw [Nat.pow_succ, Nat.mod_mul, Nat.toNat_testBit]
  ring

/-- **Rounding by the guard bit**, of a number in two fields whose upper one reaches further than the
bits that are kept. -/
theorem roundAt_fields {m j s low : Nat} (hlow : low < 2 ^ j) :
    roundAt (s + 1 + j) (m * 2 ^ j + low)
      = (m / 2 ^ (s + 1)
          + if m.testBit s = true ∧ (m % 2 ^ s ≠ 0 ∨ low ≠ 0 ∨ m.testBit (s + 1) = true) then 1 else 0)
        * 2 ^ (s + 1 + j) := by
  have hj := Nat.two_pow_pos j
  have hs := Nat.two_pow_pos s
  have hmod := Nat.mod_lt m hs
  have hdiv : (m * 2 ^ j + low) / 2 ^ (s + 1 + j) = m / 2 ^ (s + 1) := by
    rw [Nat.add_comm (s + 1), Nat.pow_add, ← Nat.div_div_eq_div_mul, Nat.add_comm,
      Nat.add_mul_div_right _ _ hj, Nat.div_eq_of_lt hlow, Nat.zero_add]
  have hrest : (m * 2 ^ j + low) % 2 ^ (s + 1 + j) = m % 2 ^ (s + 1) * 2 ^ j + low := by
    rw [Nat.add_comm (s + 1), Nat.pow_add, Nat.mod_mul, Nat.add_comm (m * 2 ^ j),
      Nat.add_mul_mod_self_right, Nat.mod_eq_of_lt hlow, Nat.add_mul_div_right _ _ hj,
      Nat.div_eq_of_lt hlow]
    ring
  have hodd : m / 2 ^ (s + 1) % 2 = 1 ↔ m.testBit (s + 1) = true := by
    rw [Nat.testBit_eq_decide_div_mod_eq, decide_eq_true_iff]
  have hhalf : 2 ^ (s + 1 + j) = 2 * (2 ^ s * 2 ^ j) := by
    ring
  unfold roundAt
  simp only [hdiv, hrest, hodd]
  rw [hhalf, mod_two_pow_succ]
  generalize m / 2 ^ (s + 1) = q
  by_cases hguard : m.testBit s = true
  · have hsum : (m.testBit s).toNat * 2 ^ s + m % 2 ^ s = 2 ^ s + m % 2 ^ s := by
      rw [hguard, Bool.toNat_true, Nat.one_mul]
    rw [hsum, Nat.add_mul]
    by_cases hzero : m % 2 ^ s * 2 ^ j + low = 0
    · -- halfway
      have h1 : m % 2 ^ s = 0 := by
        rcases Nat.mul_eq_zero.mp (Nat.add_eq_zero_iff.mp hzero).1 with h | h
        · exact h
        · omega
      have h2 : low = 0 := (Nat.add_eq_zero_iff.mp hzero).2
      simp only [hguard, h1, h2, Nat.zero_mul, Nat.add_zero, ne_eq, not_true_eq_false, false_or,
        true_and, lt_irrefl]
      split <;> ring
    · have hup : m % 2 ^ s ≠ 0 ∨ low ≠ 0 ∨ m.testBit (s + 1) = true := by
        by_contra hnone
        obtain ⟨h1, h2⟩ := not_or.mp hnone
        rw [not_not.mp h1] at hzero
        omega
      rw [if_pos (Or.inl (by omega)), if_pos ⟨hguard, hup⟩]
  · have hsum : (m.testBit s).toNat * 2 ^ s + m % 2 ^ s = m % 2 ^ s := by
      rw [Bool.eq_false_of_not_eq_true hguard, Bool.toNat_false, Nat.zero_mul, Nat.zero_add]
    have hlt : m % 2 ^ s * 2 ^ j + low < 2 ^ s * 2 ^ j := by
      have : (m % 2 ^ s + 1) * 2 ^ j ≤ 2 ^ s * 2 ^ j := Nat.mul_le_mul_right _ hmod
      rw [Nat.add_mul] at this
      omega
    rw [hsum, if_neg (by omega), if_neg fun h => hguard h.1, Nat.add_zero]

/-! ## Rounding a rational -/

/-- **`m * 2 ^ e` is `x` rounded to `p` significant bits**: no number of `p` bits lies closer, and `m` is even
when another one is as close. -/
structure RoundsToEven (p : Nat) (x : ℚ) (m e : Int) : Prop where
  nearest : ∀ n f : Int, |n| < 2 ^ p → |x - m * 2 ^ e| ≤ |x - n * 2 ^ f|
  even : ∀ n f : Int, |n| < 2 ^ p → |x - m * 2 ^ e| = |x - n * 2 ^ f| → (n : ℚ) * 2 ^ f = m * 2 ^ e ∨ Even m

theorem abs_sub_le_of_half {y : ℚ} {m z : Int} (h : |y - m| ≤ 1 / 2) :
    z = m ∨ |y - m| < |y - z| ∨ |y - m| = 1 / 2 ∧ |y - m| = |y - z| := by
  rcases eq_or_ne z m with hz | hz
  · exact Or.inl hz
  · right
    have hone : (1 : ℚ) ≤ |(z : ℚ) - m| := by
      have : 1 ≤ |z - m| := Int.one_le_abs (sub_ne_zero.mpr hz)
      exact_mod_cast this
    have htriangle : |(z : ℚ) - m| ≤ |y - m| + |y - z| := by
      rw [show (z : ℚ) - m = (y - m) - (y - z) by ring]
      exact abs_sub _ _
    rcases lt_or_eq_of_le (show |y - m| ≤ |y - z| by linarith) with hlt | heq
    · exact Or.inl hlt
    · exact Or.inr ⟨by linarith, heq⟩

theorem roundsToEven_of_scaled {p : Nat} {x : ℚ} {m e : Int} (hlow : 2 ^ p ≤ x / 2 ^ e)
    (hnear : |x / 2 ^ e - m| ≤ 1 / 2) (heven : |x / 2 ^ e - m| = 1 / 2 → Even m) : RoundsToEven (p + 1) x m e := by
  have hscale : (0 : ℚ) < 2 ^ e := zpow_pos (by norm_num) e
  -- The distance to a number, in units of the last bit.
  have hdistance : ∀ z : ℚ, |x - z * 2 ^ e| = |x / 2 ^ e - z| * 2 ^ e := by
    intro z
    rw [← abs_of_pos hscale, ← abs_mul, abs_of_pos hscale, sub_mul, div_mul_cancel₀ _ hscale.ne']
  have hother : ∀ n f : Int, (n : ℚ) * 2 ^ f = n * 2 ^ (f - e) * 2 ^ e := by
    intro n f
    rw [mul_assoc, ← zpow_add₀ (by norm_num), sub_add_cancel]
  have hcompare : ∀ n f : Int, |n| < 2 ^ (p + 1) → n * 2 ^ (f - e) = (m : ℚ) ∨
      |x / 2 ^ e - m| < |x / 2 ^ e - n * 2 ^ (f - e)| ∨
      |x / 2 ^ e - m| = 1 / 2 ∧ |x / 2 ^ e - m| = |x / 2 ^ e - n * 2 ^ (f - e)| := by
    intro n f hn
    generalize x / 2 ^ e = y at *
    rcases le_or_gt 0 (f - e) with hf | hf
    · -- The other number is an integer too.
      have hint : (n : ℚ) * 2 ^ (f - e) = ((n * 2 ^ (f - e).toNat : Int) : ℚ) := by
        push_cast
        rw [← zpow_natCast, Int.toNat_of_nonneg hf]
      rw [hint]
      rcases abs_sub_le_of_half (z := n * 2 ^ (f - e).toNat) hnear with h | h
      · exact Or.inl (by rw [h])
      · exact Or.inr h
    · -- The other number has bits behind the point, and lies below all numbers of so many bits.
      have hless : (n : ℚ) * 2 ^ (f - e) < 2 ^ p := by
        have hn' : (n : ℚ) < 2 ^ (p + 1) := by exact_mod_cast (abs_lt.mp hn).2
        have hpow : (2 : ℚ) ^ (f - e) ≤ 2 ^ (-1 : Int) := zpow_le_zpow_right₀ (by norm_num) (by omega)
        calc (n : ℚ) * 2 ^ (f - e) < 2 ^ (p + 1) * 2 ^ (f - e) := by gcongr
          _ ≤ 2 ^ (p + 1) * 2 ^ (-1 : Int) := by gcongr
          _ = 2 ^ p := by
            rw [pow_succ, zpow_neg_one, mul_assoc, mul_inv_cancel₀ (by norm_num), mul_one]
      right
      left
      have hnearest : |y - m| ≤ |y - ((2 ^ p : Int) : ℚ)| := by
        rcases abs_sub_le_of_half (z := 2 ^ p) hnear with h | h | h
        · rw [h]
        · exact h.le
        · exact h.2.le
      push_cast at hnearest
      rw [abs_of_nonneg (by linarith : 0 ≤ y - 2 ^ p)] at hnearest
      rw [abs_of_pos (by linarith : 0 < y - n * 2 ^ (f - e))]
      linarith
  constructor
  · intro n f hn
    rw [hother n f, hdistance, hdistance]
    refine mul_le_mul_of_nonneg_right ?_ hscale.le
    rcases hcompare n f hn with h | h | h
    · rw [h]
    · exact h.le
    · exact h.2.le
  · intro n f hn heq
    rw [hother n f, hdistance, hdistance] at heq
    have heq := mul_right_cancel₀ hscale.ne' heq
    rcases hcompare n f hn with h | h | h
    · left
      rw [hother n f, h]
    · exact absurd heq h.ne
    · exact Or.inr (heven h.1)

theorem RoundsToEven.carry {p : Nat} {x : ℚ} {e : Int} (h : RoundsToEven (p + 2) x (2 ^ (p + 2)) e) :
    RoundsToEven (p + 2) x (2 ^ (p + 1)) (e + 1) := by
  have hsame : ((2 ^ (p + 1) : Int) : ℚ) * 2 ^ (e + 1) = ((2 ^ (p + 2) : Int) : ℚ) * 2 ^ e := by
    push_cast
    rw [zpow_add_one₀ (by norm_num)]
    ring
  constructor
  · intro n f hn
    rw [hsame]
    exact h.nearest n f hn
  · intro n f hn heq
    right
    exact ⟨2 ^ p, by ring⟩

end Rounding
