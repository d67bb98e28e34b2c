import MitScheme.Microcode.BignumShift
import MitScheme.Microcode.IntegerMeasures

/-!
# Shifting an integer

The shifts and masks of `artutl.c`, and the primitive of `intprm.c` that shifts to the right. A shift
of a machine word is undefined unless the count is below the width of the word.

To the left, everything depends on the sum of the count and the length of the leading digit: if it
wraps around, the small case is taken for a large count, or too short a result is allocated. To the
right, the small case does not look at the count at all, and a count that is a bignum is taken to
shift out every number, also one that is negative or still longer.
-/

namespace MitScheme

open BitCounts TwosComplement ExactInteger Option
open Except (error ok)
open Bignum hiding ofInt

variable (w : Word)

/-- `<<` on a `long` that is not negative. -/
def Word.shiftLeftLong (x m : Nat) : Option Nat :=
  if m < w.objectLength then w.nat (x <<< m) else none

/-- `<<` on an `unsigned long`. -/
def Word.shiftLeftUlong (x m : Nat) : Option Nat :=
  if m < w.objectLength then some ((x <<< m) % 2 ^ w.objectLength) else none

/-- `>>` on a `long` that is not negative. -/
def Word.shiftRightLong (x m : Nat) : Option Nat :=
  if m < w.objectLength then some (x >>> m) else none

/-! ## `artutl.c` -/

/-- The ones of a mask in a machine word: `(~ ((~ ((unsigned long) 0)) << n)) << m`. -/
def wordOneBits (n m : Nat) : Option Nat := do
  let x ← w.shiftLeftUlong w.ulongMax n
  w.shiftLeftUlong (w.ulongMax - x) m

def integerNonnegativeOneBits (n m : Nat) : Option ExactInteger :=
  if n = 0 then some (longToFixnum w 0)
  else if (n + m) % 2 ^ w.objectLength ≤ w.fixnumLength then do
    let x ← wordOneBits w n m
    longToUnsignedFixnum w x
  else do
    let x ← bignumNonnegativeOneBits w n m
    some (bignum x)

def integerNegativeZeroBits (n m : Nat) : Option ExactInteger :=
  if n = 0 then some (longToFixnum w (-1))
  else if (n + m) % 2 ^ w.objectLength ≤ w.fixnumLength then do
    let x ← wordOneBits w n m
    some (longToFixnum w (Int.lnot (w.toLong x)))
  else do
    let x ← bignumNegativeZeroBits w n m
    some (bignum x)

def integerShiftLeft (n : ExactInteger) (m : Nat) : Option ExactInteger :=
  if m = 0 then some n
  else
    match n with
    | fixnum n => do
        let n1 := fixnumToLong w n
        if n1 < 0 then
          let n2 ← w.long (-n1)
          if (m + ulongLengthInBits w (w.toUlong (Int.lnot n1))) % 2 ^ w.objectLength
              ≤ w.fixnumLength then
            let r ← w.shiftLeftLong n2.toNat m
            some (longToFixnum w (-r))
          else
            let r ← unsignedLongToShiftedBignum w (w.toUlong n2) m false
            some (bignum (bignumNegate r))
        else if 0 < n1 then
          if (m + ulongLengthInBits w (w.toUlong n1)) % 2 ^ w.objectLength ≤ w.fixnumLength then
            let r ← w.shiftLeftLong n1.toNat m
            some (longToFixnum w r)
          else
            let r ← unsignedLongToShiftedBignum w (w.toUlong n1) m false
            some (bignum r)
        else some (longToFixnum w 0)
    | bignum x => do
        let r ← bignumShiftLeft w x m
        some (bignum r)
    | sharpF => none

def integerShiftRight (n : ExactInteger) (m : Nat) : Option ExactInteger :=
  if m = 0 then some n
  else
    match n with
    | fixnum n => do
        let n1 := fixnumToLong w n
        if n1 < 0 then
          let r ← w.shiftRightLong (Int.lnot n1).toNat m
          some (longToFixnum w (Int.lnot r))
        else
          let r ← w.shiftRightLong n1.toNat m
          some (longToFixnum w r)
    | bignum x => do
        let r ← bignumShiftRight w x m
        bignumToInteger w r
    | sharpF => none

/-- How a primitive rejects an argument. -/
inductive ArgumentError where
  /-- `error_bad_range_arg`. -/
  | badRange (argument : Nat)
  /-- `error_wrong_type_arg`. -/
  | wrongType (argument : Nat)
deriving DecidableEq

/-- `INTEGER-SHIFT-RIGHT`. -/
def primIntegerShiftRight : ExactInteger → ExactInteger → Option (Except ArgumentError ExactInteger)
  | sharpF, _ => some (error (ArgumentError.wrongType 1))
  | n, fixnum m =>
      if fixnumNegativeP w m then some (error (ArgumentError.badRange 2))
      else (integerShiftRight w n m).map ok
  | _, bignum m =>
      if m.negative then some (error (ArgumentError.badRange 2))
      else some (ok (fixnum 0))
  | _, sharpF => some (error (ArgumentError.wrongType 2))

variable {w}

/-! ## Shifting left -/

theorem objectLength_lt_two_pow : 2 * w.objectLength < 2 ^ w.objectLength := by
  have hlt := objectLength_lt_fixnumSignBit (w := w)
  have hpow := two_pow_objectLength (w := w)
  omega

theorem fixnumLength_lt_objectLength : w.fixnumLength < w.objectLength := by
  have := objectLength_eq (w := w)
  omega

variable {m n p s : Nat} {z : Int}

theorem wraps_small {a : Nat} (ha : a ≤ w.fixnumLength) (hm : m < 2 ^ w.objectLength)
    (h : 2 ^ w.objectLength ≤ m + a) :
    (m + a) % 2 ^ w.objectLength ≤ w.fixnumLength ∧ w.objectLength ≤ m := by
  have hlt := objectLength_lt_two_pow (w := w)
  have hfix := fixnumLength_lt_objectLength (w := w)
  rw [Nat.mod_eq_sub_mod h, Nat.mod_eq_of_lt (by omega)]
  omega

theorem shiftLeftLong_eq_none {x : Nat} (h : w.objectLength ≤ m) : w.shiftLeftLong x m = none :=
  if_neg (not_lt.mpr h)

theorem shiftLeftLong_eq {x : Nat} (hm : m < w.objectLength) (h : x * 2 ^ m ≤ w.fixnumSignBit) :
    w.shiftLeftLong x m = some (x * 2 ^ m) := by
  have hlimit := longLimit_eq_fixnum (w := w)
  have hpos := fixnumSignBit_pos (w := w)
  rw [Word.shiftLeftLong, if_pos hm, Nat.shiftLeft_eq, w.nat_eq (by omega)]

theorem fixnum_one_digit (h : InFixnumRange w z) : z.natAbs < w.radix := by
  have hlt := fixnumSignBit_lt_radix (w := w)
  obtain ⟨h1, h2⟩ := h
  omega

theorem leadingLength_fixnum (hz : z ≠ 0) (h : InFixnumRange w z) :
    leadingLength w z = Nat.size z.natAbs := by
  have hcount := digitCount_le_one_of_inRange h
  rw [size_eq_leadingLength hz, Nat.sub_eq_zero_of_le hcount, Nat.mul_zero, Nat.add_zero]

theorem shifted_fixnum (hw : w.ByteSized) (hn0 : n ≠ 0) (hn : n < w.radix) (hm0 : m ≠ 0)
    (hm : m < 2 ^ w.objectLength) :
    unsignedLongToShiftedBignum w n m false
      = if ShiftFits w n m then some (Bignum.ofInt w ((n : Int) * (2 ^ m : Nat))) else none := by
  have hone := ofInt_one_digit (w := w) (z := n) (by omega) hn
  rw [decide_eq_false (by omega), Int.natAbs_natCast] at hone
  rw [unsignedLongToShiftedBignum_eq hn0 hn hm0, ← hone, bignumShiftLeft_ofInt hw _ hm]

theorem toUlong_natCast (h : n < 2 ^ w.objectLength) : w.toUlong (n : Int) = n := by
  rw [Word.toUlong, Int.emod_eq_of_lt (by omega) (by omega), Int.toNat_natCast]

theorem size_bounds (h : 0 < n) : 2 ^ (Nat.size n - 1) ≤ n ∧ n < 2 ^ Nat.size n
    ∧ 0 < Nat.size n := by
  have hpos := Nat.size_pos.mpr h
  exact ⟨Nat.lt_size.mp (by omega), Nat.lt_size_self n, hpos⟩

theorem shiftLeft_positive (hw : w.ByteSized) (hn : 0 < n) (hlt : n < w.fixnumSignBit)
    (hm0 : m ≠ 0) (hm : m < 2 ^ w.objectLength) :
    (if (m + ulongLengthInBits w (w.toUlong (n : Int))) % 2 ^ w.objectLength ≤ w.fixnumLength then
        (w.shiftLeftLong n m).bind fun r => some (longToFixnum w r)
      else
        (unsignedLongToShiftedBignum w (w.toUlong (n : Int)) m false).bind fun r => some (bignum r))
      = if ShiftFits w n m then some (ofInt w ((n : Int) * (2 ^ m : Nat))) else none := by
  have hpow := two_pow_objectLength (w := w)
  have hword : n < 2 ^ w.objectLength := by omega
  have hrange : InFixnumRange w n := ⟨by omega, by omega⟩
  have ha : Nat.size n ≤ w.fixnumLength := Nat.size_le.mpr hlt
  have hfix := fixnumLength_lt_objectLength (w := w)
  have hlead := leadingLength_fixnum (w := w) (z := n) (by omega) hrange
  obtain ⟨hlow, hhigh, hsize⟩ := size_bounds hn
  rw [Int.natAbs_natCast] at hlead
  rw [toUlong_natCast hword, ulongLengthInBits_eq hw hword]
  have hfits : ShiftFits w n m ↔ Nat.size n + m < 2 ^ w.objectLength := by
    unfold ShiftFits
    rw [hlead]
  by_cases hsum : Nat.size n + m < 2 ^ w.objectLength
  · rw [if_pos (hfits.mpr hsum), Nat.mod_eq_of_lt (by omega)]
    by_cases hsmall : m + Nat.size n ≤ w.fixnumLength
    · have hprod : n * 2 ^ m < w.fixnumSignBit := by
        calc n * 2 ^ m < 2 ^ Nat.size n * 2 ^ m :=
              Nat.mul_lt_mul_of_pos_right hhigh (Nat.two_pow_pos m)
          _ = 2 ^ (m + Nat.size n) := by rw [← Nat.pow_add, Nat.add_comm]
          _ ≤ w.fixnumSignBit := Nat.pow_le_pow_right (by decide) hsmall
      rw [if_pos hsmall, shiftLeftLong_eq (by omega) hprod.le, bind_some,
        longToFixnum_eq ⟨by omega, by omega⟩, Int.natCast_mul]
    · have hprod : w.fixnumSignBit ≤ n * 2 ^ m := by
        calc w.fixnumSignBit ≤ 2 ^ (Nat.size n - 1 + m) :=
              Nat.pow_le_pow_right (by decide) (by omega)
          _ = 2 ^ (Nat.size n - 1) * 2 ^ m := Nat.pow_add _ _ _
          _ ≤ n * 2 ^ m := Nat.mul_le_mul_right _ hlow
      have hout : ¬ InFixnumRange w ((n : Int) * (2 ^ m : Nat)) := by
        unfold InFixnumRange
        omega
      have hdigit : n < w.radix := by
        have := fixnum_one_digit hrange
        rwa [Int.natAbs_natCast] at this
      rw [if_neg hsmall, shifted_fixnum hw (by omega) hdigit hm0 hm,
        if_pos (hfits.mpr hsum), bind_some, ofInt_of_not_inRange hout]
  · obtain ⟨hmod, hshift⟩ := wraps_small ha hm (by omega)
    rw [if_neg fun h => hsum (hfits.mp h), if_pos hmod, shiftLeftLong_eq_none hshift]
    rfl

theorem shiftLeft_negative (hw : w.ByteSized) (hn : 0 < n) (hle : n ≤ w.fixnumSignBit)
    (hm0 : m ≠ 0) (hm : m < 2 ^ w.objectLength) :
    (if (m + ulongLengthInBits w (w.toUlong ((n - 1 : Nat) : Int))) % 2 ^ w.objectLength
          ≤ w.fixnumLength then (w.shiftLeftLong n m).bind fun r => some (longToFixnum w (-r))
      else (unsignedLongToShiftedBignum w (w.toUlong (n : Int)) m false).bind fun r =>
          some (bignum (bignumNegate r)))
      = if ShiftFits w (-n) m then some (ofInt w (-(n : Int) * (2 ^ m : Nat))) else none := by
  have hpow := two_pow_objectLength (w := w)
  have hword : n < 2 ^ w.objectLength := by omega
  have hrange : InFixnumRange w (-(n : Int)) := ⟨by omega, by omega⟩
  have ha : Nat.size (n - 1) ≤ w.fixnumLength :=
    Nat.size_le.mpr (show n - 1 < 2 ^ w.fixnumLength by unfold Word.fixnumSignBit at hle; omega)
  have hfix := fixnumLength_lt_objectLength (w := w)
  have hbig := objectLength_lt_two_pow (w := w)
  have hlead := leadingLength_fixnum (w := w) (z := -(n : Int)) (by omega) hrange
  have hpred := size_pred (show n ≠ 0 by omega)
  have hhigh := Nat.lt_size_self (n - 1)
  have hposm := Nat.two_pow_pos m
  rw [Int.natAbs_neg, Int.natAbs_natCast] at hlead
  rw [toUlong_natCast hword, toUlong_natCast (show n - 1 < 2 ^ w.objectLength by omega),
    ulongLengthInBits_eq hw (show n - 1 < 2 ^ w.objectLength by omega)]
  have hfits : ShiftFits w (-(n : Int)) m ↔ Nat.size n + m < 2 ^ w.objectLength := by
    unfold ShiftFits
    rw [hlead]
  by_cases hsum : m + Nat.size (n - 1) < 2 ^ w.objectLength
  · rw [Nat.mod_eq_of_lt hsum]
    by_cases hsmall : m + Nat.size (n - 1) ≤ w.fixnumLength
    · have hprod : n * 2 ^ m ≤ w.fixnumSignBit := by
        calc n * 2 ^ m ≤ 2 ^ Nat.size (n - 1) * 2 ^ m := Nat.mul_le_mul_right _ (by omega)
          _ = 2 ^ (m + Nat.size (n - 1)) := by rw [← Nat.pow_add, Nat.add_comm]
          _ ≤ w.fixnumSignBit := Nat.pow_le_pow_right (by decide) hsmall
      have hsum' : Nat.size n + m < 2 ^ w.objectLength := by
        split at hpred <;> omega
      rw [if_pos hsmall, if_pos (hfits.mpr hsum'), shiftLeftLong_eq (by omega) hprod,
        bind_some, longToFixnum_eq ⟨by omega, by omega⟩, Int.natCast_mul, Int.neg_mul]
    · have hprod : w.fixnumSignBit < n * 2 ^ m := by
        rcases Nat.eq_zero_or_pos (n - 1) with h1 | h1
        · obtain rfl : n = 1 := by omega
          rw [Nat.one_mul]
          rw [Nat.size_zero] at hsmall
          exact Nat.pow_lt_pow_right (by decide) (by omega)
        · obtain ⟨hlow, -, hsize⟩ := size_bounds h1
          calc w.fixnumSignBit ≤ 2 ^ (Nat.size (n - 1) - 1 + m) :=
                Nat.pow_le_pow_right (by decide) (by omega)
            _ = 2 ^ (Nat.size (n - 1) - 1) * 2 ^ m := Nat.pow_add _ _ _
            _ ≤ (n - 1) * 2 ^ m := Nat.mul_le_mul_right _ hlow
            _ < n * 2 ^ m := Nat.mul_lt_mul_of_pos_right (by omega) hposm
      have hout : ¬ InFixnumRange w (-(n : Int) * (2 ^ m : Nat)) := by
        rw [Int.neg_mul]
        unfold InFixnumRange
        omega
      have hsame : ShiftFits w (n : Int) m ↔ ShiftFits w (-(n : Int)) m := by
        unfold ShiftFits leadingLength Bignum.ref Bignum.ofInt
        rw [Int.natAbs_neg]
        rfl
      rw [if_neg hsmall, shifted_fixnum hw (by omega) (by
        have := fixnum_one_digit hrange
        rwa [Int.natAbs_neg] at this) hm0 hm]
      by_cases h : ShiftFits w (-(n : Int)) m
      · rw [if_pos h, if_pos (hsame.mpr h), bind_some, bignumNegate_ofInt,
          ofInt_of_not_inRange hout, Int.neg_mul]
      · rw [if_neg h, if_neg fun h' => h (hsame.mp h')]
        rfl
  · obtain ⟨hmod, hshift⟩ := wraps_small ha hm (by omega)
    have hno : ¬ ShiftFits w (-(n : Int)) m := by
      rw [hfits]
      omega
    rw [if_neg hno, if_pos hmod, shiftLeftLong_eq_none hshift]
    rfl

theorem not_inRange_mul_two_pow (h : ¬ InFixnumRange w z) (m : Nat) :
    ¬ InFixnumRange w (z * (2 ^ m : Nat)) := by
  have hpos : (1 : Int) ≤ (2 ^ m : Nat) := by
    have := Nat.two_pow_pos m
    omega
  unfold InFixnumRange at *
  rcases lt_or_ge z 0 with hz | hz
  · have : z * (2 ^ m : Nat) ≤ z * 1 := mul_le_mul_of_nonpos_left hpos (by omega)
    omega
  · have : z * 1 ≤ z * (2 ^ m : Nat) := mul_le_mul_of_nonneg_left hpos hz
    omega

theorem integerShiftLeft_ofInt (hw : w.ByteSized) (z : Int) (hm : m < 2 ^ w.objectLength) :
    integerShiftLeft w (ofInt w z) m
      = if ShiftFits w z m then some (ofInt w (z * (2 ^ m : Nat))) else none := by
  unfold integerShiftLeft
  by_cases hm0 : m = 0
  · rw [if_pos hm0, hm0, if_pos (shiftFits_no_shift z), Nat.pow_zero, Int.natCast_one, Int.mul_one]
  rw [if_neg hm0]
  by_cases hr : InFixnumRange w z
  · have hlong := inRange_long hr
    rw [ofInt_of_inRange hr]
    dsimp only
    rw [fixnumToLong_emod hr]
    rcases lt_trichotomy z 0 with hz | hz | hz
    · obtain ⟨n, rfl⟩ : ∃ n : Nat, z = -(n : Int) := ⟨z.natAbs, by omega⟩
      have hnot : Int.lnot (-(n : Int)) = ((n - 1 : Nat) : Int) := by
        rw [lnot_eq]
        omega
      rw [if_pos hz, w.long_eq (by omega), bind_eq_bind, hnot, Int.neg_neg]
      exact shiftLeft_negative hw (by omega) (by have := hr.1; omega) hm0 hm
    · rw [if_neg (by omega), if_neg (by omega), hz, if_pos (shiftFits_zero hm), Int.zero_mul,
        longToFixnum_eq inRange_zero]
    · obtain ⟨n, rfl⟩ := Int.eq_ofNat_of_zero_le hz.le
      rw [if_pos hz]
      exact shiftLeft_positive hw (by omega) (by have := hr.2; omega) hm0 hm
  · rw [ofInt_of_not_inRange hr]
    dsimp only
    rw [bignumShiftLeft_ofInt hw z hm]
    split
    · rw [ofInt_of_not_inRange (not_inRange_mul_two_pow hr m)]
      rfl
    · rfl

/-! ## Masks -/

theorem wordOneBits_eq (h : s + p ≤ w.fixnumLength) :
    wordOneBits w s p = some ((2 ^ s - 1) * 2 ^ p)
      ∧ (2 ^ s - 1) * 2 ^ p < w.fixnumSignBit := by
  have hfix := fixnumLength_lt_objectLength (w := w)
  have hpow := two_pow_objectLength (w := w)
  have hs := Nat.two_pow_pos s
  have hp := Nat.two_pow_pos p
  have hlt : (2 ^ s - 1) * 2 ^ p < w.fixnumSignBit := by
    calc (2 ^ s - 1) * 2 ^ p < 2 ^ s * 2 ^ p := Nat.mul_lt_mul_of_pos_right (by omega) hp
      _ = 2 ^ (s + p) := (Nat.pow_add _ _ _).symm
      _ ≤ w.fixnumSignBit := Nat.pow_le_pow_right (by decide) h
  have hle : 2 ^ s ≤ 2 ^ w.objectLength := Nat.pow_le_pow_right (by decide) (by omega)
  have hones : (w.ulongMax <<< s) % 2 ^ w.objectLength = 2 ^ w.objectLength - 2 ^ s := by
    have hsplit : (2 ^ w.objectLength - 1) * 2 ^ s
        = (2 ^ w.objectLength - 2 ^ s) + 2 ^ w.objectLength * (2 ^ s - 1) := by
      obtain ⟨a, ha⟩ := Nat.exists_eq_add_of_le hle
      obtain ⟨b, hb⟩ : ∃ b, 2 ^ s = b + 1 := ⟨2 ^ s - 1, by omega⟩
      rw [ha, hb, show b + 1 + a - 1 = b + a by omega, show b + 1 + a - (b + 1) = a by omega,
        Nat.add_sub_cancel]
      ring
    rw [Word.ulongMax, Nat.shiftLeft_eq, hsplit, Nat.add_mul_mod_self_left,
      Nat.mod_eq_of_lt (by omega)]
  have hnot : w.ulongMax - (2 ^ w.objectLength - 2 ^ s) = 2 ^ s - 1 := by
    unfold Word.ulongMax
    omega
  refine ⟨?_, hlt⟩
  unfold wordOneBits Word.shiftLeftUlong
  rw [if_pos (by omega), bind_eq_bind, bind_some, hones, hnot, if_pos (by omega),
    Nat.shiftLeft_eq, Nat.mod_eq_of_lt (by omega)]

theorem wordOneBits_eq_none (h : 2 ^ w.objectLength ≤ s + p) : wordOneBits w s p = none := by
  have hbig := objectLength_lt_two_pow (w := w)
  unfold wordOneBits Word.shiftLeftUlong
  by_cases hs : s < w.objectLength
  · rw [if_pos hs, bind_eq_bind, bind_some, if_neg (by omega)]
  · rw [if_neg hs]
    rfl

/-- **When a mask comes out right**: the sum of its two numbers neither wraps around to a small one,
nor do the sums of the two shifts wrap around that make it. -/
def MaskFits (w : Word) (size position : Nat) : Prop :=
  size = 0 ∨ ((size + position ≤ w.fixnumLength
      ∨ w.fixnumLength < (size + position) % 2 ^ w.objectLength)
    ∧ MaskShiftsFit w size position)

theorem maskShiftsFit_of_small (h : s + p ≤ w.fixnumLength) : MaskShiftsFit w s p := by
  have hfix := fixnumLength_lt_objectLength (w := w)
  have hbig := objectLength_lt_two_pow (w := w)
  have hdef : w.objectLength = w.digitLength + 2 := rfl
  have h1 := leadingLength_le (w := w) (-1)
  have h2 := leadingLength_le (w := w) ((2 ^ s : Nat) - 1)
  exact ⟨show leadingLength w (-1) + s < _ by omega,
    show leadingLength w ((2 ^ s : Nat) - 1) + p < _ by omega⟩

theorem mask_cast :
    ((2 ^ s : Nat) - 1 : Int) * (2 ^ p : Nat) = (((2 ^ s - 1) * 2 ^ p : Nat) : Int) := by
  rw [Int.natCast_mul, Int.natCast_sub (Nat.two_pow_pos s)]
  rfl

theorem mask_not_inRange (hs : 0 < s) (h : w.fixnumLength < s + p) :
    (w.fixnumSignBit : Int) ≤ ((2 ^ s : Nat) - 1) * (2 ^ p : Nat) := by
  have hhalf : 2 ^ (s - 1) ≤ 2 ^ s - 1 := by
    have : 2 ^ s = 2 * 2 ^ (s - 1) := by
      rw [← Nat.pow_succ', Nat.succ_eq_add_one, Nat.sub_add_cancel hs]
    omega
  have hle : w.fixnumSignBit ≤ (2 ^ s - 1) * 2 ^ p := by
    calc w.fixnumSignBit ≤ 2 ^ (s - 1 + p) := Nat.pow_le_pow_right (by decide) (by omega)
      _ = 2 ^ (s - 1) * 2 ^ p := Nat.pow_add _ _ _
      _ ≤ (2 ^ s - 1) * 2 ^ p := Nat.mul_le_mul_right _ hhalf
  rw [mask_cast]
  exact Int.ofNat_le.mpr hle

theorem mask_cases (hs : s ≠ 0) :
    (s + p ≤ w.fixnumLength ∧ (s + p) % 2 ^ w.objectLength ≤ w.fixnumLength ∧ MaskFits w s p)
    ∨ (2 ^ w.objectLength ≤ s + p ∧ (s + p) % 2 ^ w.objectLength ≤ w.fixnumLength ∧ ¬ MaskFits w s p)
    ∨ (w.fixnumLength < s + p ∧ ¬ (s + p) % 2 ^ w.objectLength ≤ w.fixnumLength
      ∧ (MaskFits w s p ↔ MaskShiftsFit w s p)) := by
  have hfix := fixnumLength_lt_objectLength (w := w)
  have hbig := objectLength_lt_two_pow (w := w)
  by_cases hsmall : s + p ≤ w.fixnumLength
  · refine Or.inl ⟨hsmall, ?_, Or.inr ⟨Or.inl hsmall, maskShiftsFit_of_small hsmall⟩⟩
    rwa [Nat.mod_eq_of_lt (by omega)]
  · by_cases hmod : (s + p) % 2 ^ w.objectLength ≤ w.fixnumLength
    · refine Or.inr (Or.inl ⟨?_, hmod, ?_⟩)
      · by_contra hlt
        rw [Nat.mod_eq_of_lt (not_le.mp hlt)] at hmod
        exact hsmall hmod
      · rintro (h | ⟨h | h, -⟩)
        · exact hs h
        · exact hsmall h
        · omega
    · refine Or.inr (Or.inr ⟨by omega, hmod, ?_⟩)
      constructor
      · rintro (h | ⟨-, h⟩)
        · exact absurd h hs
        · exact h
      · intro h
        exact Or.inr ⟨Or.inr (not_le.mp hmod), h⟩

/-- **`integer_nonnegative_one_bits`** returns the mask if and only if it fits. -/
theorem integerNonnegativeOneBits_returns_iff (hw : w.ByteSized)
    (hs : s < 2 ^ w.objectLength) (hp : p < 2 ^ w.objectLength) :
    Returns w (integerNonnegativeOneBits w s p) (((2 ^ s : Nat) - 1) * (2 ^ p : Nat))
      ↔ MaskFits w s p := by
  rw [returns_iff]
  unfold integerNonnegativeOneBits
  by_cases hs0 : s = 0
  · refine iff_of_true ?_ (Or.inl hs0)
    rw [hs0, longToFixnum_eq inRange_zero]
    simp
  rw [if_neg hs0]
  rcases mask_cases (w := w) (p := p) hs0 with ⟨hsum, hmod, hfits⟩ | ⟨hsum, hmod, hfits⟩
      | ⟨hsum, hmod, hfits⟩
  · obtain ⟨heq, hlt⟩ := wordOneBits_eq hsum
    have hD := two_pow_datumLength (w := w)
    refine iff_of_true ?_ hfits
    rw [if_pos hmod, heq, bind_eq_bind, mask_cast]
    refine longToUnsignedFixnum_eq ⟨by omega, by omega⟩ ?_
    rw [Int.emod_eq_of_lt (by omega) (by omega), Int.toNat_natCast]
  · refine iff_of_false ?_ hfits
    rw [if_pos hmod, wordOneBits_eq_none hsum]
    simp
  · have hout : ¬ InFixnumRange w (((2 ^ s : Nat) - 1) * (2 ^ p : Nat)) := fun h =>
      absurd (mask_not_inRange (Nat.pos_of_ne_zero hs0) hsum) (not_le.mpr h.2)
    rw [hfits, if_neg hmod, bignumNonnegativeOneBits_eq hw hs hp, ofInt_of_not_inRange hout]
    split
    · rename_i h
      exact iff_of_true rfl h
    · rename_i h
      exact iff_of_false (by simp) h

/-- **`integer_negative_zero_bits`** returns the complement under the same condition. -/
theorem integerNegativeZeroBits_returns_iff (hw : w.ByteSized)
    (hs : s < 2 ^ w.objectLength) (hp : p < 2 ^ w.objectLength) :
    Returns w (integerNegativeZeroBits w s p) (-1 - ((2 ^ s : Nat) - 1) * (2 ^ p : Nat))
      ↔ MaskFits w s p := by
  have hP := fixnumSignBit_pos (w := w)
  rw [returns_iff]
  unfold integerNegativeZeroBits
  by_cases hs0 : s = 0
  · refine iff_of_true ?_ (Or.inl hs0)
    rw [hs0, longToFixnum_eq ⟨by omega, by omega⟩]
    simp
  rw [if_neg hs0]
  rcases mask_cases (w := w) (p := p) hs0 with ⟨hsum, hmod, hfits⟩ | ⟨hsum, hmod, hfits⟩
      | ⟨hsum, hmod, hfits⟩
  · obtain ⟨heq, hlt⟩ := wordOneBits_eq hsum
    have hlimit := longLimit_eq_fixnum (w := w)
    refine iff_of_true ?_ hfits
    rw [if_pos hmod, heq, bind_eq_bind, bind_some, mask_cast, Word.toLong,
      if_pos (by omega), lnot_eq, longToFixnum_eq ⟨by omega, by omega⟩]
  · refine iff_of_false ?_ hfits
    rw [if_pos hmod, wordOneBits_eq_none hsum]
    simp
  · have hout : ¬ InFixnumRange w (-1 - ((2 ^ s : Nat) - 1) * (2 ^ p : Nat)) := by
      have := mask_not_inRange (w := w) (p := p) (Nat.pos_of_ne_zero hs0) hsum
      rintro ⟨h, -⟩
      omega
    rw [hfits, if_neg hmod, bignumNegativeZeroBits_eq hw hs hp, ofInt_of_not_inRange hout]
    split
    · rename_i h
      exact iff_of_true rfl h
    · rename_i h
      exact iff_of_false (by simp) h

/-- **The left shift and the masks.** A shift returns the canonical object of the exact product if
and only if the count and the length of the leading digit add up to a number of the machine word, and
a mask comes out right if and only if its sums do. -/
theorem left_shift_and_masks (hw : w.ByteSized) :
    (∀ (n : ExactInteger) (m : Nat), n.Canonical w → m < 2 ^ w.objectLength →
      (Returns w (integerShiftLeft w n m) (n.value w * (2 ^ m : Nat))
        ↔ ShiftFits w (n.value w) m))
    ∧ ∀ s p : Nat, s < 2 ^ w.objectLength → p < 2 ^ w.objectLength →
      (Returns w (integerNonnegativeOneBits w s p) (((2 ^ s : Nat) - 1) * (2 ^ p : Nat))
          ↔ MaskFits w s p)
      ∧ (Returns w (integerNegativeZeroBits w s p) (-1 - ((2 ^ s : Nat) - 1) * (2 ^ p : Nat))
          ↔ MaskFits w s p) := by
  refine ⟨fun n m hn hm => ?_, fun s p hs hp =>
    ⟨integerNonnegativeOneBits_returns_iff hw hs hp, integerNegativeZeroBits_returns_iff hw hs hp⟩⟩
  have hshift := integerShiftLeft_ofInt hw (n.value w) hm
  rw [← canonical_iff.mp ⟨hn, rfl⟩] at hshift
  rw [hshift, returns_iff]
  split
  · rename_i h
    exact iff_of_true rfl h
  · rename_i h
    exact iff_of_false (by simp) h

theorem left_shift_and_masks_w64 :
    (Returns w64 (integerShiftLeft w64 (fixnum 3) 100) ((fixnum 3).value w64 * (2 ^ 100 : Nat))
        ↔ ShiftFits w64 ((fixnum 3).value w64) 100)
    ∧ (Returns w64 (integerNonnegativeOneBits w64 70 10) (((2 ^ 70 : Nat) - 1) * (2 ^ 10 : Nat))
        ↔ MaskFits w64 70 10) :=
  ⟨(left_shift_and_masks w64_byteSized).1 (fixnum 3) 100
      (show 3 < 2 ^ w64.datumLength by decide) (by decide),
    ((left_shift_and_masks w64_byteSized).2 70 10 (by decide) (by decide)).1⟩

/-- **One to the left by the largest `unsigned long`** takes the path of a small result, and there
asks the machine for a shift that it does not have. -/
theorem shift_left_one_wraps :
    (fixnum 1).Canonical w64 ∧ integerShiftLeft w64 (fixnum 1) (2 ^ 64 - 1) = none
      ∧ ¬ Returns w64 (integerShiftLeft w64 (fixnum 1) (2 ^ 64 - 1))
          ((fixnum 1).value w64 * (2 ^ (2 ^ 64 - 1) : Nat)) := by
  have hnone : integerShiftLeft w64 (fixnum 1) (2 ^ 64 - 1) = none := by decide
  refine ⟨show 1 < 2 ^ w64.datumLength by decide, hnone, ?_⟩
  rintro ⟨object, h, -⟩
  cases h

/-! ## Shifting right -/

theorem shiftRight_fixnum (h : InFixnumRange w z) (hm0 : m ≠ 0) :
    integerShiftRight w (ofInt w z) m
      = if m < w.objectLength then some (ofInt w (z / (2 ^ m : Nat))) else none := by
  unfold integerShiftRight
  rw [if_neg hm0, ofInt_of_inRange h]
  dsimp only
  rw [fixnumToLong_emod h]
  by_cases hz : z < 0
  · obtain ⟨a, rfl⟩ : ∃ a : Nat, z = Int.negSucc a := Int.eq_negSucc_of_lt_zero hz
    have hle : a / 2 ^ m ≤ a := Nat.div_le_self _ _
    have hdiv : Int.negSucc a / (2 ^ m : Nat) = Int.lnot ((a / 2 ^ m : Nat) : Int) :=
      negSucc_ediv_two_pow a m
    have hrange : InFixnumRange w (Int.lnot ((a / 2 ^ m : Nat) : Int)) := by
      have := h.1
      rw [lnot_eq]
      generalize a / 2 ^ m = q at hle
      exact ⟨by omega, by omega⟩
    rw [if_pos hz, hdiv, show (Int.lnot (Int.negSucc a)).toNat = a from rfl]
    unfold Word.shiftRightLong
    split
    · rw [bind_eq_bind, bind_some, Nat.shiftRight_eq_div_pow, longToFixnum_eq hrange]
    · rfl
  · obtain ⟨a, rfl⟩ := Int.eq_ofNat_of_zero_le (not_lt.mp hz)
    have hle : a / 2 ^ m ≤ a := Nat.div_le_self _ _
    have hrange : InFixnumRange w ((a / 2 ^ m : Nat) : Int) := by
      have := h.2
      generalize a / 2 ^ m = q at hle
      exact ⟨by omega, by omega⟩
    rw [if_neg hz, Int.toNat_natCast, ← Int.natCast_ediv]
    unfold Word.shiftRightLong
    split
    · rw [bind_eq_bind, bind_some, Nat.shiftRight_eq_div_pow, longToFixnum_eq hrange]
    · rfl

theorem shiftRight_bignum (h : ¬ InFixnumRange w z) (hm0 : m ≠ 0) :
    Returns w (integerShiftRight w (ofInt w z) m) (z / (2 ^ m : Nat))
      ↔ ¬ ShiftsOutside w z m ∧ LengthSurvives w (z / (2 ^ m : Nat)) := by
  unfold integerShiftRight
  rw [if_neg hm0, ofInt_of_not_inRange h]
  dsimp only
  rw [bignumShiftRight_ofInt]
  by_cases hout : ShiftsOutside w z m
  · rw [if_pos hout]
    refine iff_of_false ?_ fun h => h.1 hout
    rintro ⟨object, hobject, -⟩
    cases hobject
  · rw [if_neg hout, bind_eq_bind, bind_some, bignumToInteger_returns_iff]
    exact (and_iff_right hout).symm

/-- **When a right shift is right.** A fixnum needs a count below the width of a word; a bignum must
not be the negative power of the radix that leaves no digit to shift, and the length of its result
has to survive the cast in `bignum_fits_in_word_p`; and if the count is a bignum, the number must
not be negative and has to be short enough to be shifted out. -/
def ShiftRightFits (w : Word) (z m : Int) : Prop :=
  m = 0
  ∨ (InFixnumRange w m ∧ InFixnumRange w z ∧ m < w.objectLength)
  ∨ (InFixnumRange w m ∧ ¬ InFixnumRange w z ∧ ¬ ShiftsOutside w z m.toNat
      ∧ LengthSurvives w (z / (2 ^ m.toNat : Nat)))
  ∨ (¬ InFixnumRange w m ∧ 0 ≤ z ∧ z < (2 ^ m.toNat : Nat))

/-- A primitive returns the canonical object of an integer. -/
def PrimitiveReturns (w : Word) (r : Option (Except ArgumentError ExactInteger)) (z : Int) : Prop :=
  ∃ object, r = some (ok object) ∧ object.Canonical w ∧ object.value w = z

theorem primitiveReturns_map {r : Option ExactInteger} :
    PrimitiveReturns w (r.map ok) z ↔ Returns w r z := by
  constructor
  · rintro ⟨object, h, hobject⟩
    cases r with
    | none => cases h
    | some o =>
        injection h with h
        injection h with h
        exact ⟨object, congrArg some h, hobject⟩
  · rintro ⟨object, rfl, hobject⟩
    exact ⟨object, rfl, hobject⟩

theorem primIntegerShiftRight_fixnum (z : Int) (hm : InFixnumRange w m) :
    primIntegerShiftRight w (ofInt w z) (ofInt w m)
      = (integerShiftRight w (ofInt w z) m).map ok := by
  have hpow := two_pow_datumLength (w := w)
  have hdatum : ((m : Int) % (2 ^ w.datumLength : Nat)).toNat = m := by
    have := hm.2
    rw [Int.emod_eq_of_lt (by omega) (by omega), Int.toNat_natCast]
  have hneg := fixnumNegativeP_eq hm
  rw [ofInt_of_inRange hm]
  rw [hdatum, decide_eq_false (by omega)] at hneg
  rw [hdatum]
  unfold ofInt
  split
  · rw [primIntegerShiftRight, hneg, if_neg Bool.false_ne_true]
    exact fun h => by cases h
  · rw [primIntegerShiftRight, hneg, if_neg Bool.false_ne_true]
    exact fun h => by cases h

theorem primIntegerShiftRight_bignum (z : Int) (hm : ¬ InFixnumRange w m) :
    primIntegerShiftRight w (ofInt w z) (ofInt w m) = some (ok (ofInt w 0)) := by
  have hneg : (Bignum.ofInt w (m : Int)).negative = false := by
    rw [← ofInt_natCast]
  have hzero : ofInt w 0 = fixnum 0 := by
    rw [ofInt_of_inRange inRange_zero]
    rfl
  rw [hzero]
  unfold ofInt
  split
  · rw [primIntegerShiftRight, hneg, if_neg Bool.false_ne_true]
    exact fun h => by cases h
  · rw [primIntegerShiftRight, hneg, if_neg Bool.false_ne_true]
    exact fun h => by cases h

theorem primIntegerShiftRight_ofInt (z : Int) (m : Nat) :
    PrimitiveReturns w (primIntegerShiftRight w (ofInt w z) (ofInt w m)) (z / (2 ^ m : Nat))
      ↔ ShiftRightFits w z m := by
  have hposm := Nat.two_pow_pos m
  unfold ShiftRightFits
  rw [Int.toNat_natCast]
  by_cases hm : InFixnumRange w m
  · rw [primIntegerShiftRight_fixnum z hm, primitiveReturns_map]
    by_cases hm0 : m = 0
    · refine iff_of_true ?_ (Or.inl (by omega))
      unfold integerShiftRight
      rw [hm0, Nat.pow_zero, Int.natCast_one, Int.ediv_one, if_pos rfl, returns_iff]
    have hne : (m : Int) ≠ 0 := by omega
    by_cases hz : InFixnumRange w z
    · rw [shiftRight_fixnum hz hm0, returns_iff]
      simp only [hne, hm, hz, true_and, not_true_eq_false, false_and, or_false, false_or]
      split
      · exact iff_of_true rfl (by omega)
      · exact iff_of_false (by simp) (by omega)
    · rw [shiftRight_bignum hz hm0]
      simp only [hne, hm, hz, true_and, not_true_eq_false, not_false_eq_true, false_and, and_false,
        or_false, false_or]
  · have hne : (m : Int) ≠ 0 := fun h => hm (h ▸ inRange_zero)
    rw [primIntegerShiftRight_bignum z hm]
    simp only [hne, hm, false_and, not_false_eq_true, true_and, false_or]
    have hdiv : z / (2 ^ m : Nat) = 0 ↔ 0 ≤ z ∧ z < (2 ^ m : Nat) := by
      rw [Int.ediv_eq_iff_of_pos (by omega)]
      omega
    rw [← hdiv]
    constructor
    · rintro ⟨object, hobject, -, hvalue⟩
      injection hobject with hobject
      injection hobject with hobject
      rw [← hobject, value_ofInt] at hvalue
      exact hvalue.symm
    · intro h
      rw [h]
      exact ⟨_, rfl, canonical_ofInt 0, value_ofInt 0⟩

/-- **The right shift.** The primitive returns the canonical object of the quotient, rounded down, if
and only if the shift fits; and it undoes a left shift if and only if the shift back fits. -/
theorem shift_right {n m : ExactInteger} (hn : n.Canonical w) (hm : m.Canonical w)
    (hpos : 0 ≤ m.value w) :
    (PrimitiveReturns w (primIntegerShiftRight w n m) (n.value w / (2 ^ (m.value w).toNat : Nat))
      ↔ ShiftRightFits w (n.value w) (m.value w))
    ∧ ∀ p : ExactInteger, p.Canonical w → p.value w = n.value w * (2 ^ (m.value w).toNat : Nat) →
      (primIntegerShiftRight w p m = some (ok n)
        ↔ ShiftRightFits w (p.value w) (m.value w)) := by
  obtain ⟨k, hk⟩ := Int.eq_ofNat_of_zero_le hpos
  have hmeq := canonical_iff.mp ⟨hm, hk⟩
  have hneq := canonical_iff.mp ⟨hn, rfl⟩
  rw [hk, Int.toNat_natCast, hmeq]
  constructor
  · have hprim := primIntegerShiftRight_ofInt (w := w) (n.value w) k
    rwa [← hneq] at hprim
  · intro p hp hvalue
    have hprim := primIntegerShiftRight_ofInt (w := w) (p.value w) k
    have hback : p.value w / (2 ^ k : Nat) = n.value w := by
      rw [hvalue, Int.mul_ediv_cancel _ (by have := Nat.two_pow_pos k; omega)]
    rw [hback, ← canonical_iff.mp ⟨hp, rfl⟩] at hprim
    rw [← hprim]
    constructor
    · intro h
      exact ⟨n, h, hn, rfl⟩
    · rintro ⟨object, h, hobject⟩
      rw [h, canonical_iff.mp hobject, ← hneq]

theorem shift_right_w64 :
    PrimitiveReturns w64 (primIntegerShiftRight w64 (bignum ⟨true, [0, 3]⟩) (fixnum 5))
        ((bignum ⟨true, [0, 3]⟩).value w64 / (2 ^ ((fixnum 5).value w64).toNat : Nat))
      ↔ ShiftRightFits w64 ((bignum ⟨true, [0, 3]⟩).value w64) ((fixnum 5).value w64) :=
  have hn : (bignum ⟨true, [0, 3]⟩).Canonical w64 := ⟨by decide, by decide, by decide⟩
  have hm : (fixnum 5).Canonical w64 := show 5 < 2 ^ w64.datumLength by decide
  (shift_right hn hm (by decide)).1

/-- **The negative of the radix by one more than the length of a digit** has a complement of one
digit, and the shift starts at the second; and five by the width of a word is left to the machine. -/
theorem shift_right_outside :
    (bignum ⟨true, [0, 1]⟩).Canonical w64 ∧ (fixnum 63).Canonical w64
      ∧ primIntegerShiftRight w64 (bignum ⟨true, [0, 1]⟩) (fixnum 63) = none
      ∧ ¬ PrimitiveReturns w64 (primIntegerShiftRight w64 (bignum ⟨true, [0, 1]⟩) (fixnum 63))
          ((bignum ⟨true, [0, 1]⟩).value w64 / (2 ^ ((fixnum 63).value w64).toNat : Nat))
      ∧ primIntegerShiftRight w64 (fixnum 5) (fixnum 64) = none := by
  have hnone : primIntegerShiftRight w64 (bignum ⟨true, [0, 1]⟩) (fixnum 63) = none := by decide
  refine ⟨⟨by decide, by decide, by decide⟩, show 63 < 2 ^ w64.datumLength by decide, hnone, ?_,
    by decide⟩
  rintro ⟨object, h, -⟩
  cases h

end MitScheme
