import Mathlib.Data.Int.Bitwise
import Mathlib.Tactic.Linarith
import Mathlib.Tactic.Ring

/-!
# Integers as infinite rows of bits

An integer in two's complement is a row of bits that is constant from some place on. What
`Int.bitwise` does with complements of its operands, which integers have their bits constant from a
given place on, and how a bitwise operation on naturals goes through a splitting into fields.
-/

namespace TwosComplement

open Int (bitwise lnot negSucc testBit testBit_bitwise)

variable {x y : Int} {f : Bool → Bool → Bool}

theorem eq_of_testBit_eq (h : ∀ i, x.testBit i = y.testBit i) : x = y := by
  cases x with
  | ofNat a =>
      cases y with
      | ofNat b => exact congrArg Int.ofNat (Nat.eq_of_testBit_eq h)
      | negSucc b =>
          have h' := h (a + b)
          rw [testBit, testBit,
            Nat.testBit_lt_two_pow (Nat.lt_of_le_of_lt (Nat.le_add_right a b) Nat.lt_two_pow_self),
            Nat.testBit_lt_two_pow (Nat.lt_of_le_of_lt (Nat.le_add_left b a) Nat.lt_two_pow_self)] at h'
          cases h'
  | negSucc a =>
      cases y with
      | ofNat b =>
          have h' := h (a + b)
          rw [testBit, testBit,
            Nat.testBit_lt_two_pow (Nat.lt_of_le_of_lt (Nat.le_add_right a b) Nat.lt_two_pow_self),
            Nat.testBit_lt_two_pow (Nat.lt_of_le_of_lt (Nat.le_add_left b a) Nat.lt_two_pow_self)] at h'
          cases h'
      | negSucc b =>
          refine congrArg negSucc (Nat.eq_of_testBit_eq fun i => ?_)
          exact Bool.not_inj (h i)

theorem lnot_eq (z : Int) : lnot z = -1 - z := by
  cases z with
  | ofNat a =>
      change negSucc a = -1 - (a : Int)
      omega
  | negSucc a =>
      change (a : Int) = -1 - negSucc a
      omega

@[simp] theorem lnot_lnot (z : Int) : lnot (lnot z) = z := by
  rw [lnot_eq, lnot_eq]
  omega

@[simp] theorem testBit_zero (i : Nat) : (0 : Int).testBit i = false := Nat.zero_testBit i

@[simp] theorem testBit_neg_one (i : Nat) : (-1 : Int).testBit i = true := by
  change (!(0 : Nat).testBit i) = true
  rw [Nat.zero_testBit]
  rfl

theorem testBit_ediv_two_pow (z : Int) (k i : Nat) : (z / 2 ^ k).testBit i = z.testBit (i + k) := by
  cases z with
  | ofNat n =>
      exact Nat.testBit_div_two_pow n i
  | negSucc n =>
      have hdiv : negSucc n / 2 ^ k = negSucc (n / 2 ^ k) := by
        exact Int.negSucc_ediv n (Int.pow_pos (by decide))
      rw [hdiv]
      exact congrArg not (Nat.testBit_div_two_pow n i)

theorem testBit_mul_two_pow (z : Int) (k i : Nat) :
    (z * 2 ^ k).testBit i = (decide (k ≤ i) && z.testBit (i - k)) := by
  have hpow := Nat.two_pow_pos k
  cases z with
  | ofNat n =>
      exact Nat.testBit_mul_two_pow n i k
  | negSucc n =>
      have hmul : negSucc n * 2 ^ k = negSucc (n * 2 ^ k + (2 ^ k - 1)) := by
        have hsucc : ((2 ^ k - 1 : Nat) : Int) = 2 ^ k - 1 := by
          rw [Nat.cast_sub hpow]
          rfl
        rw [Int.negSucc_eq, Int.negSucc_eq, Int.natCast_add, Int.natCast_mul, hsucc, Int.natCast_pow]
        ring
      rw [hmul]
      change (!Nat.testBit (n * 2 ^ k + (2 ^ k - 1)) i) = (decide (k ≤ i) && !Nat.testBit n (i - k))
      rw [Nat.mul_comm, Nat.testBit_two_pow_mul_add _ (by omega)]
      by_cases hi : i < k
      · simp [hi]
      · simp [hi, Nat.le_of_not_lt hi]
theorem bitwise_eq {z : Int}
    (h : ∀ i, f (x.testBit i) (y.testBit i) = z.testBit i) : bitwise f x y = z :=
  eq_of_testBit_eq fun i => (testBit_bitwise f x y i).trans (h i)

theorem bitwise_lnot_right (f : Bool → Bool → Bool) (x y : Int) :
    bitwise f x (lnot y) = bitwise (fun a b => f a (!b)) x y := by
  refine eq_of_testBit_eq fun i => ?_
  simp only [testBit_bitwise, Int.testBit_lnot]

theorem bitwise_lnot_left (f : Bool → Bool → Bool) (x y : Int) :
    bitwise f (lnot x) y = bitwise (fun a b => f (!a) b) x y := by
  refine eq_of_testBit_eq fun i => ?_
  simp only [testBit_bitwise, Int.testBit_lnot]

theorem lnot_bitwise (f : Bool → Bool → Bool) (x y : Int) :
    lnot (bitwise f x y) = bitwise (fun a b => !f a b) x y := by
  refine eq_of_testBit_eq fun i => ?_
  simp only [testBit_bitwise, Int.testBit_lnot]

theorem bitwise_swap (f : Bool → Bool → Bool) (x y : Int) :
    bitwise f x y = bitwise (fun a b => f b a) y x := by
  refine eq_of_testBit_eq fun i => ?_
  simp only [testBit_bitwise]

theorem bitwise_natCast (hf : f false false = false) (a b : Nat) :
    bitwise f a b = (Nat.bitwise f a b : Nat) := by
  change Int.natBitwise f a b = _
  unfold Int.natBitwise
  rw [hf]
  rfl

/-! ## Bits that are constant from a place on -/

theorem range_iff (k : Nat) (z : Int) :
    (-((2 ^ k : Nat) : Int) ≤ z ∧ z < (2 ^ k : Nat)) ↔ ∃ s, ∀ i, k ≤ i → z.testBit i = s := by
  cases z with
  | ofNat a =>
      change (-((2 ^ k : Nat) : Int) ≤ (a : Int) ∧ (a : Int) < (2 ^ k : Nat)) ↔ _
      constructor
      · intro h
        refine ⟨false, fun i hi => ?_⟩
        exact Nat.testBit_lt_two_pow (Nat.lt_of_lt_of_le (show a < 2 ^ k by omega)
          (Nat.pow_le_pow_right (by decide) hi))
      · rintro ⟨s, hs⟩
        have hfalse : s = false := by
          rw [← hs (a + k) (Nat.le_add_left k a)]
          exact Nat.testBit_lt_two_pow
            (Nat.lt_of_le_of_lt (Nat.le_add_right a k) Nat.lt_two_pow_self)
        subst hfalse
        have := Nat.lt_pow_two_of_testBit a hs
        omega
  | negSucc a =>
      constructor
      · intro h
        refine ⟨true, fun i hi => ?_⟩
        change (!a.testBit i) = true
        rw [Nat.testBit_lt_two_pow (Nat.lt_of_lt_of_le (show a < 2 ^ k by omega)
          (Nat.pow_le_pow_right (by decide) hi))]
        rfl
      · rintro ⟨s, hs⟩
        have htrue : s = true := by
          rw [← hs (a + k) (Nat.le_add_left k a)]
          change (!a.testBit (a + k)) = true
          rw [Nat.testBit_lt_two_pow
            (Nat.lt_of_le_of_lt (Nat.le_add_right a k) Nat.lt_two_pow_self)]
          rfl
        subst htrue
        have := Nat.lt_pow_two_of_testBit a fun i hi => by simpa [testBit] using hs i hi
        omega

theorem bitwise_range (f : Bool → Bool → Bool) {k : Nat}
    (hx : -((2 ^ k : Nat) : Int) ≤ x ∧ x < (2 ^ k : Nat))
    (hy : -((2 ^ k : Nat) : Int) ≤ y ∧ y < (2 ^ k : Nat)) :
    -((2 ^ k : Nat) : Int) ≤ bitwise f x y ∧ bitwise f x y < (2 ^ k : Nat) := by
  obtain ⟨s, hs⟩ := (range_iff k x).mp hx
  obtain ⟨t, ht⟩ := (range_iff k y).mp hy
  refine (range_iff k _).mpr ⟨f s t, fun i hi => ?_⟩
  rw [testBit_bitwise, hs i hi, ht i hi]

/-- The number that has a one bit wherever a bit differs from the sign. -/
def signedBits (z : Int) : Nat := if z < 0 then (lnot z).toNat else z.toNat

theorem bitwise_fields (hf : f false false = false) {k a b : Nat}
    (ha : a < 2 ^ k) (hb : b < 2 ^ k) (x y : Nat) :
    Nat.bitwise f (a + 2 ^ k * x) (b + 2 ^ k * y)
      = Nat.bitwise f a b + 2 ^ k * Nat.bitwise f x y := by
  have hab : Nat.bitwise f a b < 2 ^ k := Nat.bitwise_lt_two_pow ha hb
  refine Nat.eq_of_testBit_eq fun i => ?_
  rw [Nat.testBit_bitwise hf, Nat.add_comm a, Nat.add_comm b, Nat.add_comm (Nat.bitwise f a b),
    Nat.testBit_two_pow_mul_add _ ha, Nat.testBit_two_pow_mul_add _ hb,
    Nat.testBit_two_pow_mul_add _ hab]
  split
  · rw [Nat.testBit_bitwise hf]
  · rw [Nat.testBit_bitwise hf]

end TwosComplement
