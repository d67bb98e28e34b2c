import MitScheme.Microcode.IntegerArithmetic

/-!
# Integers and machine words

The conversions of `bignum.c` and `artutl.c` between an integer and one of the types `long`,
`unsigned long`, `intmax_t` and `uintmax_t`. The macros that define them take the type; here they
take its number of bits.
-/

namespace MitScheme

open Bignum ExactInteger

variable (w : Word)

/-- `sizeof (intmax_t) * CHAR_BIT`: 64, unless a `long` is longer. -/
def Word.intmaxLength : Nat := max 64 w.objectLength

/-- The value of an expression of a signed type. -/
def signedWord (bits : Nat) (x : Int) : Option Int :=
  if -((2 ^ (bits - 1) : Nat) : Int) ≤ x ∧ x < (2 ^ (bits - 1) : Nat) then some x else none

/-- The cast of an unsigned type to the signed one. -/
def toSigned (bits n : Nat) : Int :=
  if n < 2 ^ (bits - 1) then n else (n : Int) - (2 ^ bits : Nat)

/-- `DEFINE_INT_TO_BIGNUM`. -/
def intToBignum (bits : Nat) (n : Int) : Option Bignum :=
  if n = 0 then some makeZero
  else if n = 1 then some (makeOne false)
  else if n = -1 then some (makeOne true)
  else do
    let accumulator ← (if n < 0 then signedWord bits (-n) else some n)
    some ⟨decide (n < 0), longDigits w (w.bitsToDigits bits) accumulator.toNat⟩

def intmaxToBignum (n : Int) : Option Bignum := intToBignum w w.intmaxLength n

/-- The loop of `DEFINE_BIGNUM_TO_INT` and `DEFINE_BIGNUM_TO_UINT`, from the leading digit down. -/
def digitsToUint (bits : Nat) : List Nat → Nat
  | [] => 0
  | d :: ds => ((digitsToUint bits ds <<< w.digitLength) + d) % 2 ^ bits

/-- `DEFINE_BIGNUM_TO_INT`. -/
def bignumToInt (bits : Nat) (x : Bignum) : Option Int :=
  if x.zeroP then some 0
  else
    let accumulator := toSigned bits (digitsToUint w bits x.digits)
    if x.negative then signedWord bits (-accumulator) else some accumulator

def bignumToIntmax (x : Bignum) : Option Int := bignumToInt w w.intmaxLength x

/-- `DEFINE_UINT_TO_BIGNUM`. -/
def uintToBignum (bits n : Nat) : Bignum :=
  if n = 0 then makeZero
  else if n = 1 then makeOne false
  else ⟨false, longDigits w (w.bitsToDigits bits) n⟩

def ulongToBignum (n : Nat) : Bignum := uintToBignum w w.objectLength n

def uintmaxToBignum (n : Nat) : Bignum := uintToBignum w w.intmaxLength n

/-- `DEFINE_BIGNUM_TO_UINT`, with its assertion. -/
def bignumToUint (bits : Nat) (x : Bignum) : Option Nat :=
  if x.zeroP then some 0
  else do
    guard (x.negative = false)
    some (digitsToUint w bits x.digits)

/-- `bignum_to_ulong`. -/
def bignumToUlongInteger (x : Bignum) : Option Nat := bignumToUint w w.objectLength x

def bignumToUintmax (x : Bignum) : Option Nat := bignumToUint w w.intmaxLength x

/-! ## `artutl.c` -/

def fixnumNegativeP (datum : Nat) : Bool := (datum &&& w.fixnumSignBit) != 0

def integerToLongP : ExactInteger → Option Bool
  | fixnum _ => some true
  | bignum x => bignumFitsInWordP w x w.objectLength true
  | sharpF => none

def integerToLong : ExactInteger → Option Int
  | fixnum n => some (fixnumToLong w n)
  | bignum x => bignumToLong w x
  | sharpF => none

def integerToIntmaxP : ExactInteger → Option Bool
  | fixnum _ => some true
  | bignum x => bignumFitsInWordP w x w.intmaxLength true
  | sharpF => none

def integerToIntmax : ExactInteger → Option Int
  | fixnum n => some (fixnumToLong w n)
  | bignum x => bignumToIntmax w x
  | sharpF => none

/-- `long_to_integer`, with the overflow of the negation in `long_to_bignum`. -/
def longToIntegerChecked (number : Int) : Option ExactInteger := do
  let _ ← w.long (-number)
  some (longToInteger w number)

def intmaxToInteger (number : Int) : Option ExactInteger :=
  if -(w.longLimit : Int) ≤ number ∧ number < w.longLimit then longToIntegerChecked w number
  else do
    let x ← intmaxToBignum w number
    some (bignum x)

def integerToUlongP : ExactInteger → Option Bool
  | fixnum n => some (!fixnumNegativeP w n)
  | bignum x => bignumFitsInWordP w x w.objectLength false
  | sharpF => none

def integerToUlong : ExactInteger → Option Nat
  | fixnum n => some (w.toUlong (fixnumToLong w n))
  | bignum x => bignumToUlongInteger w x
  | sharpF => none

def integerToUintmaxP : ExactInteger → Option Bool
  | fixnum n => some (!fixnumNegativeP w n)
  | bignum x => bignumFitsInWordP w x w.intmaxLength false
  | sharpF => none

def integerToUintmax : ExactInteger → Option Nat
  | fixnum n => some (fixnumToLong w n % (2 ^ w.intmaxLength : Nat)).toNat
  | bignum x => bignumToUintmax w x
  | sharpF => none

def ulongToInteger (number : Nat) : ExactInteger :=
  let sNumber := w.toLong number
  if 0 ≤ sNumber then
    if longToFixnumP w sNumber then longToFixnum w sNumber else bignum (longToBignum w sNumber)
  else bignum (ulongToBignum w number)

def uintmaxToInteger (number : Nat) : ExactInteger :=
  if number < 2 ^ w.objectLength then ulongToInteger w number
  else bignum (uintmaxToBignum w number)

/-!
## When a word conversion is exact

`bignum_fits_in_word_p` compares numbers of digits and then leading digits. That decides the
question for every non-negative bignum. Below zero the range reaches one further, and the number
there is a power of two: the test takes any number with its leading digit for it, and it does not
look for it at all when it is a power of the radix.
-/

open DigitList

/-- The bits of a word that hold a magnitude, `n_bits`. -/
def magnitudeBits (wordLength : Nat) (twosComplement : Bool) : Nat :=
  if twosComplement then wordLength - 1 else wordLength

/-- **The integers that a word holds.** -/
def InWord (wordLength : Nat) (twosComplement : Bool) (z : Int) : Prop :=
  if twosComplement then
    -((2 ^ (wordLength - 1) : Nat) : Int) ≤ z ∧ z < (2 ^ (wordLength - 1) : Nat)
  else 0 ≤ z ∧ z < (2 ^ wordLength : Nat)

instance (wordLength : Nat) (twosComplement : Bool) (z : Int) :
    Decidable (InWord wordLength twosComplement z) := by
  unfold InWord
  exact inferInstance

variable {w}

theorem digitLength_pos : 0 < w.digitLength := by
  have := w.le_half
  unfold Word.digitLength
  omega

theorem radix_pow (k : Nat) : w.radix ^ k = 2 ^ (k * w.digitLength) := by
  rw [Word.radix, ← Nat.pow_mul, Nat.mul_comm]

variable {n k wordLength : Nat} {z : Int} {twosComplement : Bool}

theorem bitsToDigits_spec (h : 0 < n) :
    0 < w.bitsToDigits n ∧ (w.bitsToDigits n - 1) * w.digitLength < n
      ∧ n ≤ w.bitsToDigits n * w.digitLength := by
  have hd := digitLength_pos (w := w)
  have hdiv := Nat.div_add_mod (n + (w.digitLength - 1)) w.digitLength
  have hmod := Nat.mod_lt (n + (w.digitLength - 1)) hd
  have hpos : 0 < w.bitsToDigits n := Nat.div_pos (by omega) hd
  change w.digitLength * w.bitsToDigits n + _ = _ at hdiv
  rw [Nat.mul_comm] at hdiv
  have : (w.bitsToDigits n - 1) * w.digitLength + w.digitLength
      = w.bitsToDigits n * w.digitLength := by
    rw [← Nat.succ_mul, Nat.succ_eq_add_one, Nat.sub_add_cancel hpos]
  omega

theorem natAbs_lt_radix_pow : z.natAbs < w.radix ^ k ↔ digitCount w z ≤ k :=
  (Nat.digits_length_le_iff w.one_lt_radix _).symm

theorem natAbs_lt_of_digitCount (hn : 0 < n)
    (h : digitCount w z < w.bitsToDigits n) : z.natAbs < 2 ^ n := by
  have hlt := natAbs_lt_radix_pow.mpr (show digitCount w z ≤ w.bitsToDigits n - 1 by omega)
  rw [radix_pow] at hlt
  exact hlt.trans (Nat.pow_lt_pow_right (by decide) (bitsToDigits_spec hn).2.1)

theorem le_natAbs_of_digitCount (hn : 0 < n)
    (h : w.bitsToDigits n < digitCount w z) : 2 ^ n ≤ z.natAbs := by
  have hle : ¬ z.natAbs < w.radix ^ w.bitsToDigits n := fun hlt =>
    absurd (natAbs_lt_radix_pow.mp hlt) (by omega)
  rw [radix_pow] at hle
  exact (Nat.pow_le_pow_right (by decide) (bitsToDigits_spec hn).2.2).trans (not_lt.mp hle)

/-! ## The test -/

theorem bignumFitsInWordP_eq {x : Bignum} (hsign : twosComplement = true ∨ x.negative = false)
    (hn : 0 < magnitudeBits wordLength twosComplement) :
    bignumFitsInWordP w x wordLength twosComplement
      = if x.length % uintLimit < w.bitsToDigits (magnitudeBits wordLength twosComplement) then
          some true
        else if x.length % uintLimit > w.bitsToDigits (magnitudeBits wordLength twosComplement) then
          some false
        else if (x.length - 1) * w.digitLength ≤ magnitudeBits wordLength twosComplement then
          (w.nat (2 ^ (magnitudeBits wordLength twosComplement
              - (x.length - 1) * w.digitLength))).bind fun max =>
            some (decide (x.ref (x.length - 1) < max)
              || (twosComplement && decide (x.ref (x.length - 1) = max) && x.negative))
        else none := by
  have hfirst : (!twosComplement && x.negative) = false := by
    rcases hsign with h | h
    · rw [h]
      rfl
    · rw [h, Bool.and_false]
  unfold magnitudeBits at hn ⊢
  unfold bignumFitsInWordP
  simp only [hfirst, Bool.false_eq_true, ↓reduceIte, hn, guard, Option.bind_eq_bind,
    Option.pure_def, Option.bind_some]
  split_ifs <;> simp only [failure, Option.bind_some, Option.bind_none]

theorem ref_leading (h : digitCount w z = k) :
    (Bignum.ofInt w z).ref ((Bignum.ofInt w z).length - 1) = z.natAbs / w.radix ^ (k - 1) % w.radix := by
  have hlen : (Bignum.ofInt w z).length = k := h
  rw [hlen]
  unfold Bignum.ref Bignum.ofInt
  rw [Nat.getD_digits _ _ w.one_lt_radix]

/-- **The test on a number of as many digits as the word takes.** -/
theorem bignumFitsInWordP_of_length
    (hsign : twosComplement = true ∨ 0 ≤ z) (hbits : magnitudeBits wordLength twosComplement = n)
    (hn : 0 < n) (hlength : digitCount w z = w.bitsToDigits n) (hshort : digitCount w z < uintLimit) :
    bignumFitsInWordP w (Bignum.ofInt w z) wordLength twosComplement
      = some (decide (z.natAbs < 2 ^ n) || (twosComplement
          && decide (2 ^ n ≤ z.natAbs ∧ z.natAbs < 2 ^ n + w.radix ^ (w.bitsToDigits n - 1))
          && decide (z < 0))) := by
  obtain ⟨hpos, hlow, hhigh⟩ := bitsToDigits_spec (w := w) hn
  have hlen : (Bignum.ofInt w z).length = w.bitsToDigits n := hlength
  have hsign' : twosComplement = true ∨ (Bignum.ofInt w z).negative = false := by
    rcases hsign with h | h
    · exact Or.inl h
    · exact Or.inr (decide_eq_false (by omega))
  rw [bignumFitsInWordP_eq hsign' (by omega), hbits, ref_leading hlength, hlen,
    Nat.mod_eq_of_lt (by omega), if_neg (by omega), if_neg (by omega), if_pos (by omega)]
  -- the power of two that the leading digit is compared with, and its place
  obtain ⟨e, he⟩ : ∃ e, n = (w.bitsToDigits n - 1) * w.digitLength + e := ⟨_, (Nat.add_sub_of_le hlow.le).symm⟩
  have he' : n - (w.bitsToDigits n - 1) * w.digitLength = e := by omega
  have hsplit : 2 ^ n = w.radix ^ (w.bitsToDigits n - 1) * 2 ^ e := by
    rw [radix_pow, ← Nat.pow_add, ← he]
  have hR : 0 < w.radix ^ (w.bitsToDigits n - 1) := Nat.pow_pos w.radix_pos
  have hle : e ≤ w.digitLength := by
    have : w.bitsToDigits n * w.digitLength
        = (w.bitsToDigits n - 1) * w.digitLength + w.digitLength := by
      rw [← Nat.succ_mul, Nat.succ_eq_add_one, Nat.sub_add_cancel hpos]
    omega
  have hmax : 2 ^ e ≤ w.radix := Nat.pow_le_pow_right (by decide) hle
  have hradix := w.radix_pos
  rw [he', w.nat_eq_of_lt (by omega), Option.bind_some]
  have hlead : z.natAbs / w.radix ^ (w.bitsToDigits n - 1) % w.radix
      = z.natAbs / w.radix ^ (w.bitsToDigits n - 1) := by
    refine Nat.mod_eq_of_lt ?_
    rw [Nat.div_lt_iff_lt_mul hR, ← Nat.pow_succ', Nat.succ_eq_add_one, Nat.sub_add_cancel hpos]
    exact natAbs_lt_radix_pow.mpr hlength.le
  have h1 : z.natAbs / w.radix ^ (w.bitsToDigits n - 1) < 2 ^ e ↔ z.natAbs < 2 ^ n := by
    rw [Nat.div_lt_iff_lt_mul hR, hsplit, Nat.mul_comm]
  have h2 : z.natAbs / w.radix ^ (w.bitsToDigits n - 1) = 2 ^ e
      ↔ 2 ^ n ≤ z.natAbs ∧ z.natAbs < 2 ^ n + w.radix ^ (w.bitsToDigits n - 1) := by
    rw [Nat.div_eq_iff hR]
    have := Nat.mul_comm (w.radix ^ (w.bitsToDigits n - 1)) (2 ^ e)
    omega
  rw [hlead, decide_eq_decide.mpr h1, decide_eq_decide.mpr h2]
  rfl

/-! ## When the test is exact -/

variable (w) in
/-- **When the cast to `unsigned int` does not hide a length**: it keeps it, or what is left of it
is still more than so many digits. -/
def LengthTold (digits : Nat) (z : Int) : Prop :=
  digitCount w z < uintLimit ∨ digits < digitCount w z % uintLimit

variable (w) in
/-- **The negative numbers that the test gets wrong**, with `n` bits for the magnitude: the most
negative number itself where it is a power of the radix, and otherwise the numbers below it that
have its leading digit. -/
def Misjudged (n : Nat) (z : Int) : Prop :=
  if w.digitLength ∣ n then z = -((2 ^ n : Nat) : Int)
  else -((2 ^ n + w.radix ^ (w.bitsToDigits n - 1) : Nat) : Int) < z ∧ z < -((2 ^ n : Nat) : Int)

variable (w) in
/-- **The condition under which the test is exact.** -/
def TestExact (wordLength : Nat) (twosComplement : Bool) (z : Int) : Prop :=
  (twosComplement = false ∧ z < 0)
    ∨ (0 < magnitudeBits wordLength twosComplement
      ∧ LengthTold w (w.bitsToDigits (magnitudeBits wordLength twosComplement)) z
      ∧ (twosComplement = true → ¬ Misjudged w (magnitudeBits wordLength twosComplement) z))

theorem two_pow_add_radix_pow_le (hn : 0 < n) :
    2 ^ n + w.radix ^ (w.bitsToDigits n - 1) ≤ 2 ^ (n + 1) := by
  have hlt : w.radix ^ (w.bitsToDigits n - 1) < 2 ^ n := by
    rw [radix_pow]
    exact Nat.pow_lt_pow_right (by decide) (bitsToDigits_spec hn).2.1
  omega

theorem radix_pow_of_dvd (hn : 0 < n) (h : w.digitLength ∣ n) :
    w.radix ^ w.bitsToDigits n = 2 ^ n := by
  obtain ⟨k, hk⟩ := h
  obtain ⟨hpos, hlow, hhigh⟩ := bitsToDigits_spec (w := w) hn
  have hd := digitLength_pos (w := w)
  have hle : k ≤ w.bitsToDigits n := by
    refine Nat.le_of_mul_le_mul_left ?_ hd
    rw [← hk, Nat.mul_comm]
    exact hhigh
  have hge : w.bitsToDigits n - 1 < k := by
    refine Nat.lt_of_mul_lt_mul_left (a := w.digitLength) ?_
    rw [← hk, Nat.mul_comm]
    exact hlow
  rw [radix_pow, show w.bitsToDigits n = k by omega, Nat.mul_comm, ← hk]

theorem two_pow_succ_le_of_not_dvd (hn : 0 < n) (h : ¬ w.digitLength ∣ n) :
    2 ^ (n + 1) ≤ w.radix ^ w.bitsToDigits n := by
  have hne : n ≠ w.bitsToDigits n * w.digitLength := fun he => h ⟨_, he.trans (Nat.mul_comm _ _)⟩
  have hhigh := (bitsToDigits_spec (w := w) hn).2.2
  rw [radix_pow]
  exact Nat.pow_le_pow_right (by decide) (by omega)

theorem radix_pow_le_natAbs (h : k < digitCount w z) : w.radix ^ k ≤ z.natAbs := by
  by_contra hlt
  have := natAbs_lt_radix_pow.mp (not_le.mp hlt)
  omega

theorem two_pow_succ_le_of_long (hn : n < uintLimit)
    (h : uintLimit ≤ digitCount w z) : 2 ^ (n + 1) ≤ z.natAbs := by
  have hle := radix_pow_le_natAbs (w := w) (z := z) (k := uintLimit - 1) (by omega)
  rw [radix_pow] at hle
  refine (Nat.pow_le_pow_right (by decide) ?_).trans hle
  have hd : 2 ≤ w.digitLength := by
    have := w.le_half
    unfold Word.digitLength
    omega
  unfold uintLimit at *
  omega

theorem not_misjudged_of_lt (h : z.natAbs < 2 ^ n) : ¬ Misjudged w n z := by
  unfold Misjudged
  split <;> omega

theorem not_misjudged_of_le (hn : 0 < n) (h : 2 ^ (n + 1) ≤ z.natAbs) : ¬ Misjudged w n z := by
  have hle := two_pow_add_radix_pow_le (w := w) hn
  have hpos := Nat.two_pow_pos n
  unfold Misjudged
  split <;> omega

theorem inWord_iff
    (hsign : twosComplement = true ∨ 0 ≤ z) (hbits : magnitudeBits wordLength twosComplement = n) :
    InWord wordLength twosComplement z
      ↔ z.natAbs < 2 ^ n ∨ (twosComplement = true ∧ z = -((2 ^ n : Nat) : Int)) := by
  subst hbits
  unfold InWord magnitudeBits
  cases twosComplement
  · have : 0 ≤ z := by simpa using hsign
    simp only [Bool.false_eq_true, ↓reduceIte, false_and, or_false]
    omega
  · simp only [↓reduceIte, true_and]
    have hpos := Nat.two_pow_pos (wordLength - 1)
    omega

theorem test_exact_short
    (hsign : twosComplement = true ∨ 0 ≤ z) (hbits : magnitudeBits wordLength twosComplement = n)
    (hn : 0 < n) (hshort : digitCount w z < uintLimit) :
    bignumFitsInWordP w (Bignum.ofInt w z) wordLength twosComplement
        = some (decide (InWord wordLength twosComplement z))
      ↔ (twosComplement = true → ¬ Misjudged w n z) := by
  have hlen : (Bignum.ofInt w z).length = digitCount w z := rfl
  have hsign' : twosComplement = true ∨ (Bignum.ofInt w z).negative = false := by
    rcases hsign with h | h
    · exact Or.inl h
    · exact Or.inr (decide_eq_false (by omega))
  have hin := inWord_iff hsign hbits
  have hpos := Nat.two_pow_pos n
  rcases lt_trichotomy (digitCount w z) (w.bitsToDigits n) with hlt | heq | hgt
  · have hfits := natAbs_lt_of_digitCount hn hlt
    rw [bignumFitsInWordP_eq hsign' (by omega), hbits, hlen, Nat.mod_eq_of_lt hshort, if_pos hlt,
      decide_eq_true (hin.mpr (Or.inl hfits))]
    exact iff_of_true rfl fun _ => not_misjudged_of_lt hfits
  · rw [bignumFitsInWordP_of_length hsign hbits hn heq hshort, Option.some.injEq]
    by_cases hfits : z.natAbs < 2 ^ n
    · rw [decide_eq_true hfits, decide_eq_true (hin.mpr (Or.inl hfits))]
      exact iff_of_true rfl fun _ => not_misjudged_of_lt hfits
    · rw [decide_eq_false hfits, Bool.false_or]
      cases twosComplement with
      | false =>
          rw [Bool.false_and, Bool.false_and, decide_eq_false (by rw [hin]; simp [hfits])]
          simp
      | true =>
          -- as many digits as the word takes, and yet no room: the word ends within a digit
          have hdvd : ¬ w.digitLength ∣ n := by
            intro h
            have := natAbs_lt_radix_pow.mpr heq.le
            rw [radix_pow_of_dvd hn h] at this
            exact hfits this
          have hR : 0 < w.radix ^ (w.bitsToDigits n - 1) := Nat.pow_pos w.radix_pos
          have hin' : InWord wordLength true z ↔ z = -((2 ^ n : Nat) : Int) := by
            rw [hin]
            simp [hfits]
          rw [Bool.true_and, ← Bool.decide_and, decide_eq_decide, hin']
          unfold Misjudged
          rw [if_neg hdvd]
          constructor
          · omega
          · intro h
            have := h rfl
            omega
  · have hge := le_natAbs_of_digitCount hn hgt
    rw [bignumFitsInWordP_eq hsign' (by omega), hbits, hlen, Nat.mod_eq_of_lt hshort,
      if_neg (by omega), if_pos hgt, Option.some.injEq]
    have hin' : InWord wordLength twosComplement z
        ↔ twosComplement = true ∧ z = -((2 ^ n : Nat) : Int) := by
      rw [hin]
      simp [not_lt.mpr hge]
    have hmis : twosComplement = true → (Misjudged w n z ↔ z = -((2 ^ n : Nat) : Int)) := by
      intro _
      unfold Misjudged
      by_cases hdvd : w.digitLength ∣ n
      · rw [if_pos hdvd]
      · -- one digit more is then at least one bit more
        have h2 := (two_pow_succ_le_of_not_dvd hn hdvd).trans (radix_pow_le_natAbs hgt)
        have h3 := two_pow_add_radix_pow_le (w := w) hn
        rw [if_neg hdvd]
        rw [Nat.pow_succ] at h2 h3
        omega
    rw [eq_comm, decide_eq_false_iff_not, hin', not_and]
    exact forall_congr' fun h => not_congr (hmis h).symm

theorem test_exact_long
    (hsign : twosComplement = true ∨ 0 ≤ z) (hbits : magnitudeBits wordLength twosComplement = n)
    (hn : 0 < n) (hU : n < uintLimit) (hlong : uintLimit ≤ digitCount w z) :
    bignumFitsInWordP w (Bignum.ofInt w z) wordLength twosComplement
        = some (decide (InWord wordLength twosComplement z))
      ↔ w.bitsToDigits n < digitCount w z % uintLimit := by
  have hlen : (Bignum.ofInt w z).length = digitCount w z := rfl
  have hsign' : twosComplement = true ∨ (Bignum.ofInt w z).negative = false := by
    rcases hsign with h | h
    · exact Or.inl h
    · exact Or.inr (decide_eq_false (by omega))
  have hbig := two_pow_succ_le_of_long hU hlong
  have hpos := Nat.two_pow_pos n
  have hin : ¬ InWord wordLength twosComplement z := by
    rw [inWord_iff hsign hbits]
    omega
  rw [bignumFitsInWordP_eq hsign' (by omega), hbits, hlen, decide_eq_false hin]
  rcases lt_trichotomy (digitCount w z % uintLimit) (w.bitsToDigits n) with hlt | heq | hgt
  · rw [if_pos hlt]
    exact iff_of_false (by decide) (by omega)
  · -- the shift is undefined
    have hguard : ¬ (digitCount w z - 1) * w.digitLength ≤ n := by
      have hd : 2 ≤ w.digitLength := by
        have := w.le_half
        unfold Word.digitLength
        omega
      have := Nat.mul_le_mul_left (digitCount w z - 1) hd
      omega
    rw [if_neg (by omega), if_neg (by omega), if_neg hguard]
    exact iff_of_false nofun (by omega)
  · rw [if_neg (by omega), if_pos hgt]
    exact iff_of_true rfl hgt

/-- **When `bignum_fits_in_word_p` is exact.** -/
theorem bignumFitsInWordP_exact (hU : magnitudeBits wordLength twosComplement < uintLimit) :
    bignumFitsInWordP w (Bignum.ofInt w z) wordLength twosComplement
        = some (decide (InWord wordLength twosComplement z))
      ↔ TestExact w wordLength twosComplement z := by
  by_cases hneg : twosComplement = false ∧ z < 0
  · obtain ⟨rfl, hz⟩ := hneg
    have hfalse : bignumFitsInWordP w (Bignum.ofInt w z) wordLength false = some false := by
      unfold bignumFitsInWordP
      rw [if_pos (by simpa [Bignum.ofInt] using hz)]
    have hin : ¬ InWord wordLength false z := by
      unfold InWord
      rw [if_neg Bool.false_ne_true]
      omega
    rw [hfalse, decide_eq_false hin]
    exact iff_of_true rfl (Or.inl ⟨rfl, hz⟩)
  · have hsign : twosComplement = true ∨ 0 ≤ z := by
      cases twosComplement
      · exact Or.inr (by simpa using hneg)
      · exact Or.inl rfl
    unfold TestExact LengthTold
    by_cases hn : 0 < magnitudeBits wordLength twosComplement
    · by_cases hshort : digitCount w z < uintLimit
      · rw [test_exact_short hsign rfl hn hshort]
        simp only [hneg, hn, hshort, false_or, true_or, true_and]
      · have hlong : uintLimit ≤ digitCount w z := not_lt.mp hshort
        have hmis := not_misjudged_of_le (w := w) hn (two_pow_succ_le_of_long hU hlong)
        rw [test_exact_long hsign rfl hn hU hlong]
        simp only [hneg, hn, hshort, hmis, false_or, true_and, not_false_eq_true, implies_true,
          and_true]
    · refine iff_of_false ?_ (by simp only [hneg, hn, false_and, or_self, not_false_eq_true])
      -- the assertion on the number of bits
      have hfirst : (!twosComplement && (Bignum.ofInt w z).negative) = false := by
        rcases hsign with h | h
        · rw [h]
          rfl
        · rw [Bignum.ofInt, decide_eq_false (by omega), Bool.and_false]
      unfold magnitudeBits at hn
      unfold bignumFitsInWordP
      simp only [hfirst, Bool.false_eq_true, ↓reduceIte, hn, guard, failure, Option.bind_eq_bind,
        Option.bind_none]
      intro hnone
      cases hnone

end MitScheme
