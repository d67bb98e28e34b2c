import MitScheme.Microcode.Bignum

/-!
# Division of bignums

The three division paths of `bignum.c`: by a denominator below the radix root, by
any other single digit, and by two digits or more, which is Knuth's Algorithm D on
a normalised denominator. The single-digit step of the last two is the same
algorithm once more, on half digits.

The source computes a quotient only when the caller passes a place for it. The
model always computes both the quotient and the remainder, since neither depends
on whether the other was asked for.
-/

namespace MitScheme

open Bignum BignumComparison

variable (w : Word)

/-! ## Two digits by one -/

/-- The adjustment loop of `BDD_STEP`: the final guess. It runs at most `guess` times. -/
def bddAdjust (v1 v2 : Nat) : Nat → Nat → Option Nat
  | 0, _ => some 0
  | guess + 1, comparand => do
      let product ← w.nat ((guess + 1) * v2)
      if product > comparand then
        let comparand ← w.nat (comparand + v1 <<< w.half)
        if comparand ≥ w.radix then some guess else bddAdjust v1 v2 guess comparand
      else
        some (guess + 1)

/-- `BDDS_MULSUB`: the new `un` and the carry. -/
def bddsMulsub (vn un guess carryIn : Nat) : Option (Nat × Nat) := do
  let product ← w.nat (vn * guess + carryIn)
  let diff ← w.long ((un : Int) - w.hdLow product)
  if diff < 0 then
    let carry ← w.nat (w.hdHigh product + 1)
    some ((diff + w.radixRoot).toNat, carry)
  else
    some (diff.toNat, w.hdHigh product)

/-- `BDDS_ADD`: the new `un` and the carry. -/
def bddsAdd (vn un carryIn : Nat) : Option (Nat × Nat) := do
  let sum ← w.nat (vn + un + carryIn)
  if sum < w.radixRoot then some (sum, 0) else some (sum - w.radixRoot, 1)

/-- `bignum_digit_divide_subtract`: the quotient half digit and the three half digits
of `u`. A borrow out of `u[0]` is made up with a whole radix, as in the source. -/
def bignumDigitDivideSubtract (v1 v2 guess u0 u1 u2 : Nat) :
    Option (Nat × Nat × Nat × Nat) := do
  let (u2, carry) ← bddsMulsub w v2 u2 guess 0
  let (u1, carry) ← bddsMulsub w v1 u1 guess carry
  if carry = 0 then
    some (guess, u0, u1, u2)
  else
    let diff ← w.long ((u0 : Int) - carry)
    if 0 ≤ diff then
      some (guess, diff.toNat, u1, u2)
    else
      let u0 := (diff + w.radix).toNat
      let (u2, carry) ← bddsAdd w v2 u2 0
      let (u1, carry) ← bddsAdd w v1 u1 carry
      some (guess - 1, if carry = 1 then u0 + 1 else u0, u1, u2)

/-- The guess `BDD_STEP` arrives at. -/
def bddGuess (v1 v2 u0 u1 u2 : Nat) : Option Nat :=
  if u0 ≠ v1 then do
    let u0u1 ← w.nat (w.hdCons u0 u1)
    let comparand ← w.nat (w.hdCons (u0u1 % v1) u2)
    bddAdjust w v1 v2 (u0u1 / v1) comparand
  else do
    let comparand ← w.nat (w.hdCons (u1 + v1) u2)
    bddAdjust w v1 v2 (w.radixRoot - 1) comparand

def bddStep (v1 v2 u0 u1 u2 : Nat) : Option (Nat × Nat × Nat × Nat) := do
  let guess ← bddGuess w v1 v2 u0 u1 u2
  bignumDigitDivideSubtract w v1 v2 guess u0 u1 u2

/-- `bignum_digit_divide`: the quotient `*q` and the returned remainder. -/
def bignumDigitDivide (uh ul v : Nat) : Option (Nat × Nat) :=
  if uh = 0 ∧ ul < v then some (0, ul)
  else if uh = 0 ∧ ul = v then some (1, 0)
  else do
    let v1 := w.hdHigh v
    let v2 := w.hdLow v
    let (q1, _, u1, u2) ← bddStep w v1 v2 (w.hdHigh uh) (w.hdLow uh) (w.hdHigh ul)
    let (q2, _, u2, u3) ← bddStep w v1 v2 u1 u2 (w.hdLow ul)
    some (w.hdCons q1 q2, w.hdCons u2 u3)

/-! ## A denominator of one digit -/

/-- The loop of `bignum_destructive_scale_down`: the quotient digits and the remainder. -/
def scaleDownDigits (denominator : Nat) : List Nat → Option (List Nat × Nat)
  | [] => some ([], 0)
  | twoDigits :: ds => do
      let (qs, remainder) ← scaleDownDigits denominator ds
      let numerator ← w.nat (w.hdCons remainder (w.hdHigh twoDigits))
      let quotientHigh := numerator / denominator
      let numerator ← w.nat (w.hdCons (numerator % denominator) (w.hdLow twoDigits))
      some (w.hdCons quotientHigh (numerator / denominator) :: qs, numerator % denominator)

/-- `bignum_destructive_scale_down`, with its assertion. -/
def bignumDestructiveScaleDown (digits : List Nat) (denominator : Nat) :
    Option (List Nat × Nat) := do
  guard (1 < denominator ∧ denominator < w.radixRoot)
  scaleDownDigits w denominator digits

def bignumDivideUnsignedSmallDenominator (numerator : Bignum) (denominator : Nat)
    (qNegative rNegative : Bool) : Option (Bignum × Bignum) := do
  let (qs, r) ← bignumDestructiveScaleDown w numerator.digits denominator
  some (trim ⟨qNegative, qs⟩, digitToBignum r rNegative)

/-- The loop of `bignum_remainder_unsigned_small_denominator`. -/
def remainderDigits (d : Nat) : List Nat → Option Nat
  | [] => some 0
  | twoDigits :: ds => do
      let r ← remainderDigits d ds
      let high ← w.nat (w.hdCons r (w.hdHigh twoDigits))
      let low ← w.nat (w.hdCons (high % d) (w.hdLow twoDigits))
      some (low % d)

def bignumRemainderUnsignedSmallDenominator (n : Bignum) (d : Nat) (negative : Bool) :
    Option Bignum := do
  guard (1 < d ∧ d < w.radixRoot)
  let r ← remainderDigits w d n.digits
  some (digitToBignum r negative)

/-- The loops that shift a digit left until its top bit is set, with the shift.
`fuel` bounds the rounds; `digitLength` of them always suffice. -/
def normalizeShift : Nat → Nat → Nat → Option (Nat × Nat)
  | 0, _, _ => none
  | fuel + 1, v, shift =>
      if v < w.radix / 2 then do
        let v ← w.nat (v <<< 1)
        normalizeShift fuel v (shift + 1)
      else
        some (v, shift)

/-- The loop of `bignum_destructive_normalization`: the target digits and the carry. -/
def normalizationDigits (shiftLeft : Nat) : List Nat → Nat → List Nat × Nat
  | [], carry => ([], carry)
  | digit :: ds, carry =>
      let shiftRight := w.digitLength - shiftLeft
      let mask := 2 ^ shiftRight - 1
      let (ts, out) := normalizationDigits shiftLeft ds (digit >>> shiftRight)
      ((((digit &&& mask) <<< shiftLeft) ||| carry) :: ts, out)

/-- `bignum_destructive_normalization` into a target one digit longer. -/
def bignumDestructiveNormalizationLonger (source : List Nat) (shiftLeft : Nat) : List Nat :=
  let (ts, carry) := normalizationDigits w shiftLeft source 0
  ts ++ [carry]

/-- `bignum_destructive_normalization` into a target of the same length, with its
assertion. -/
def bignumDestructiveNormalization (source : List Nat) (shiftLeft : Nat) :
    Option (List Nat) := do
  let (ts, carry) := normalizationDigits w shiftLeft source 0
  guard (carry = 0)
  some ts

/-- The loop of `bignum_destructive_unnormalization`: the digits and the carry. -/
def unnormalizationDigits (shiftRight : Nat) : List Nat → List Nat × Nat
  | [] => ([], 0)
  | digit :: ds =>
      let (ts, carry) := unnormalizationDigits shiftRight ds
      let shiftLeft := w.digitLength - shiftRight
      let mask := 2 ^ shiftRight - 1
      (((digit >>> shiftRight) ||| carry) :: ts, (digit &&& mask) <<< shiftLeft)

/-- `bignum_destructive_unnormalization`, with its assertion. -/
def bignumDestructiveUnnormalization (digits : List Nat) (shiftRight : Nat) :
    Option (List Nat) := do
  let (ts, carry) := unnormalizationDigits w shiftRight digits
  guard (carry = 0)
  some ts

/-- The loop of `bignum_divide_unsigned_medium_denominator`. -/
def divideDigits (denominator : Nat) : List Nat → Option (List Nat × Nat)
  | [] => some ([], 0)
  | d :: ds => do
      let (qs, r) ← divideDigits denominator ds
      let (qj, r) ← bignumDigitDivide w r d denominator
      some (qj :: qs, r)

def bignumDivideUnsignedMediumDenominator (numerator : Bignum) (denominator : Nat)
    (qNegative rNegative : Bool) : Option (Bignum × Bignum) := do
  let (denominator, shift) ← normalizeShift w w.digitLength denominator 0
  let ds :=
    if shift = 0 then numerator.digits
    else bignumDestructiveNormalizationLonger w numerator.digits shift
  let (qs, r) ← divideDigits w denominator ds
  some (trim ⟨qNegative, qs⟩, digitToBignum (r >>> shift) rNegative)

/-! ## A denominator of two digits or more -/

/-- The adjustment loop of `bignum_divide_unsigned_normalized`; the comparand is the
pair `ch`, `cl`. -/
def normalizedAdjust (v1 v2 cl : Nat) : Nat → Nat → Option Nat
  | 0, _ => some 0
  | guess + 1, ch => do
      let gl := w.hdLow (guess + 1)
      let gh := w.hdHigh (guess + 1)
      let v2l := w.hdLow v2
      let v2h := w.hdHigh v2
      let pl ← w.nat (v2l * gl)
      let ph ← w.nat (v2l * gh + v2h * gl + w.hdHigh pl)
      let pl := w.hdCons (w.hdLow ph) (w.hdLow pl)
      let ph ← w.nat (v2h * gh + w.hdHigh ph)
      if ch > ph ∨ (ch = ph ∧ cl ≥ pl) then
        some (guess + 1)
      else
        let ch ← w.nat (ch + v1)
        if ch ≥ w.radix then some guess else normalizedAdjust v1 v2 cl guess ch

/-- One round of the multiply-and-subtract loop of `bignum_divide_subtract`: the digit to
store and the carry. -/
def mulSubStep (guess v u carry : Nat) : Option (Nat × Nat) := do
  let gl := w.hdLow guess
  let gh := w.hdHigh guess
  let vl := w.hdLow v
  let vh := w.hdHigh v
  let pl ← w.nat (vl * gl + w.hdLow carry)
  let ph ← w.nat (vl * gh + vh * gl + w.hdHigh pl + w.hdHigh carry)
  let diff ← w.long ((u : Int) - w.hdCons (w.hdLow ph) (w.hdLow pl))
  if diff < 0 then
    let carry ← w.nat (vh * gh + w.hdHigh ph + 1)
    some ((diff + w.radix).toNat, carry)
  else
    let carry ← w.nat (vh * gh + w.hdHigh ph)
    some (diff.toNat, carry)

/-- The multiply-and-subtract loop of `bignum_divide_subtract`: the digits of `u` and the
carry. -/
def mulSubDigits (guess : Nat) : List Nat → List Nat → Nat → Option (List Nat × Nat)
  | [], us, carry => some (us, carry)
  | _ :: _, [], _ => none
  | v :: vs, u :: us, carry => do
      let (digit, carry) ← mulSubStep w guess v u carry
      let (us, carry) ← mulSubDigits guess vs us carry
      some (digit :: us, carry)

/-- The loop of `bignum_divide_subtract` that adds `v` back: the digits of `u` and the
carry. -/
def addBackDigits : List Nat → List Nat → Nat → Option (List Nat × Nat)
  | [], us, carry => some (us, carry)
  | _ :: _, [], _ => none
  | v :: vs, u :: us, carry => do
      let sum ← w.nat (v + u + carry)
      if sum < w.radix then
        let (us, carry) ← addBackDigits vs us 0
        some (sum :: us, carry)
      else
        let (us, carry) ← addBackDigits vs us 1
        some ((sum - w.radix) :: us, carry)

/-- `bignum_divide_subtract` on the low digits `us` of the window, as many as `v` has,
and its top digit: the quotient digit and the new window. -/
def bignumDivideSubtract (vs : List Nat) (guess : Nat) (us : List Nat) (top : Nat) :
    Option (Nat × List Nat × Nat) :=
  if guess = 0 then some (0, us, top)
  else do
    let (us, carry) ← mulSubDigits w guess vs us 0
    if carry = 0 then
      some (guess, us, top)
    else
      let diff ← w.long ((top : Int) - carry)
      if 0 ≤ diff then
        some (guess, us, diff.toNat)
      else
        let top := (diff + w.radix).toNat
        let (us, carry) ← addBackDigits w vs us 0
        if carry = 1 then
          let sum ← w.nat (top + carry)
          some (guess - 1, us, if sum < w.radix then sum else sum - w.radix)
        else
          some (guess - 1, us, top)

/-- The guess `bignum_divide_unsigned_normalized` arrives at: `uj`, `u1` and `cl` are the
three leading digits of the window. -/
def normalizedGuess (v1 v2 uj u1 cl : Nat) : Option Nat :=
  if uj ≠ v1 then do
    let (gm, ch) ← bignumDigitDivide w uj u1 v1
    normalizedAdjust w v1 v2 cl gm ch
  else do
    let ch ← w.nat (u1 + v1)
    normalizedAdjust w v1 v2 cl (w.radix - 1) ch

/-- One round of `bignum_divide_unsigned_normalized`, on the window that starts with the
digits `us` and ends with `top`. -/
def normalizedStep (vs us : List Nat) (top : Nat) : Option (Nat × List Nat × Nat) := do
  let n := vs.length
  let guess ← normalizedGuess w (vs.getD (n - 1) 0) (vs.getD (n - 2) 0) top
    (us.getD (n - 1) 0) (us.getD (n - 2) 0)
  bignumDivideSubtract w vs guess us top

/-- `bignum_divide_unsigned_normalized`: the quotient digits and what is left in `u`. -/
def bignumDivideUnsignedNormalized (vs : List Nat) : List Nat → Option (List Nat × List Nat)
  | [] => some ([], [])
  | u :: us =>
      if us.length < vs.length then some ([], u :: us)
      else do
        let (qs, us) ← bignumDivideUnsignedNormalized vs us
        let window := u :: us.take vs.length
        let rest := us.drop vs.length
        let (qj, low, top) ←
          normalizedStep w vs (window.take vs.length) (window.getD vs.length 0)
        some (qj :: qs, low ++ top :: rest)

def bignumDivideUnsignedLargeDenominator (numerator denominator : Bignum)
    (qNegative rNegative : Bool) : Option (Bignum × Bignum) := do
  guard (1 < denominator.length)
  let (_, shift) ←
    normalizeShift w w.digitLength (denominator.ref (denominator.length - 1)) 0
  if shift = 0 then
    let (qs, us) ←
      bignumDivideUnsignedNormalized w denominator.digits (numerator.digits ++ [0])
    some (trim ⟨qNegative, qs⟩, trim ⟨rNegative, us⟩)
  else
    let us := bignumDestructiveNormalizationLonger w numerator.digits shift
    let vs ← bignumDestructiveNormalization w denominator.digits shift
    let (qs, us) ← bignumDivideUnsignedNormalized w vs us
    let us ← bignumDestructiveUnnormalization w us shift
    some (trim ⟨qNegative, qs⟩, trim ⟨rNegative, us⟩)

/-! ## Exports -/

/-- `bignum_divide`: the quotient and the remainder; the inner `none` is a returned 1. -/
def bignumDivide (numerator denominator : Bignum) : Option (Option (Bignum × Bignum)) :=
  if denominator.zeroP then some none
  else if numerator.zeroP then some (some (numerator, numerator))
  else
    let rNegative := numerator.negative
    let qNegative := if denominator.negative then !rNegative else rNegative
    match bignumCompareUnsigned numerator denominator with
    | equal => some (some (makeOne qNegative, makeZero))
    | less => some (some (makeZero, numerator))
    | greater =>
        if denominator.length = 1 then
          let digit := denominator.ref 0
          if digit = 1 then some (some (numerator.newSign qNegative, makeZero))
          else if digit < w.radixRoot then do
            let result ←
              bignumDivideUnsignedSmallDenominator w numerator digit qNegative rNegative
            some (some result)
          else do
            let result ←
              bignumDivideUnsignedMediumDenominator w numerator digit qNegative rNegative
            some (some result)
        else do
          let result ←
            bignumDivideUnsignedLargeDenominator w numerator denominator qNegative rNegative
          some (some result)

/-- `bignum_quotient`; the inner `none` is `BIGNUM_OUT_OF_BAND`. -/
def bignumQuotient (numerator denominator : Bignum) : Option (Option Bignum) :=
  if denominator.zeroP then some none
  else if numerator.zeroP then some (some numerator)
  else
    let qNegative :=
      if denominator.negative then !numerator.negative else numerator.negative
    match bignumCompareUnsigned numerator denominator with
    | equal => some (some (makeOne qNegative))
    | less => some (some makeZero)
    | greater =>
        if denominator.length = 1 then
          let digit := denominator.ref 0
          if digit = 1 then some (some (numerator.newSign qNegative))
          else if digit < w.radixRoot then do
            let (q, _) ←
              bignumDivideUnsignedSmallDenominator w numerator digit qNegative false
            some (some q)
          else do
            let (q, _) ←
              bignumDivideUnsignedMediumDenominator w numerator digit qNegative false
            some (some q)
        else do
          let (q, _) ←
            bignumDivideUnsignedLargeDenominator w numerator denominator qNegative false
          some (some q)

/-- `bignum_remainder`; the inner `none` is `BIGNUM_OUT_OF_BAND`. -/
def bignumRemainder (numerator denominator : Bignum) : Option (Option Bignum) :=
  if denominator.zeroP then some none
  else if numerator.zeroP then some (some numerator)
  else
    match bignumCompareUnsigned numerator denominator with
    | equal => some (some makeZero)
    | less => some (some numerator)
    | greater =>
        if denominator.length = 1 then
          let digit := denominator.ref 0
          -- a power of two, one included
          if digit &&& (digit - 1) = 0 then
            let unsignedRemainder := (digit - 1) &&& numerator.ref 0
            some (some (digitToBignum unsignedRemainder numerator.negative))
          else if digit < w.radixRoot then do
            let r ←
              bignumRemainderUnsignedSmallDenominator w numerator digit numerator.negative
            some (some r)
          else do
            let (_, r) ← bignumDivideUnsignedMediumDenominator w numerator digit false
              numerator.negative
            some (some r)
        else do
          let (_, r) ← bignumDivideUnsignedLargeDenominator w numerator denominator false
            numerator.negative
          some (some r)

end MitScheme
