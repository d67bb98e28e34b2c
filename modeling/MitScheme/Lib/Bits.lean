import Mathlib.Data.Nat.Bitwise

/-!
# Bit fields

Bit operations on natural numbers as arithmetic: a field is cut out by a mask, and fields that
do not overlap are put together by `or`.
-/

namespace MitScheme

theorem shiftLeft_or_eq {a b k : Nat} (h : b < 2 ^ k) : a <<< k ||| b = a * 2 ^ k + b := by
  rw [← Nat.shiftLeft_add_eq_or_of_lt h, Nat.shiftLeft_eq]

theorem or_eq_add {a b : Nat} (k : Nat) (ha : 2 ^ k ∣ a) (hb : b < 2 ^ k) : a ||| b = a + b := by
  obtain ⟨q, rfl⟩ := ha
  rw [Nat.mul_comm, ← Nat.shiftLeft_eq, shiftLeft_or_eq hb, Nat.shiftLeft_eq]

theorem and_mask (a k : Nat) : a &&& (2 ^ k - 1) = a % 2 ^ k := Nat.and_two_pow_sub_one_eq_mod a k

theorem mask_shifted (a j k : Nat) :
    ((2 ^ k - 1) <<< j) &&& a = (a / 2 ^ j % 2 ^ k) * 2 ^ j := by
  rw [← Nat.shiftLeft_eq, ← and_mask, ← Nat.shiftRight_eq_div_pow]
  refine Nat.eq_of_testBit_eq fun i => ?_
  rw [Nat.testBit_and, Nat.testBit_shiftLeft, Nat.testBit_shiftLeft, Nat.testBit_and,
    Nat.testBit_shiftRight]
  by_cases hij : j ≤ i
  · rw [Nat.add_sub_cancel' hij]
    simp only [hij, decide_true, Bool.true_and, Bool.and_comm]
  · simp [hij]

end MitScheme
