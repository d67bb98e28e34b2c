import MitScheme.Microcode.BignumDivide

/-!
# Exact integers

`artutl.c`: an exact integer is a fixnum when it fits in the datum of an object,
and a bignum otherwise. The operations take a fast path on two fixnums, go through
bignums in every other case, and bring the result back with `bignum_to_integer`.

A fixnum is modelled by its datum, the low `DATUM_LENGTH` bits of the object, so
that the conversions between a `long` and a fixnum are the bit manipulations of
`object.h`.
-/

namespace MitScheme

open Bignum

/-- The objects exact integer arithmetic takes and returns. -/
inductive ExactInteger where
  /-- A fixnum, by its datum. -/
  | fixnum (datum : Nat)
  /-- A bignum. -/
  | bignum (x : Bignum)
  /-- `SHARP_F`, how division by zero is reported. -/
  | sharpF
deriving Repr, DecidableEq

open ExactInteger

variable (w : Word)

/-- The value of a `long` as an `unsigned long`. -/
def Word.toUlong (n : Int) : Nat := (n % (2 ^ w.objectLength : Nat)).toNat

/-- The value of an `unsigned long` as a `long`. -/
def Word.toLong (n : Nat) : Int :=
  if n < w.longLimit then n else (n : Int) - (2 ^ w.objectLength : Nat)

def Word.fixnumSignBit : Nat := 2 ^ w.fixnumLength

/-- `SIGN_MASK`: the type code and the sign of a fixnum. -/
def Word.signMask : Nat := (2 ^ 7 - 1) <<< w.fixnumLength

def Word.datumMask : Nat := 2 ^ w.datumLength - 1

/-- `FIXNUM_TO_LONG`; the type code cancels. -/
def fixnumToLong (datum : Nat) : Int :=
  ((datum ^^^ w.fixnumSignBit : Nat) : Int) - w.fixnumSignBit

def longToFixnumP (n : Int) : Bool :=
  (w.toUlong n &&& w.signMask) == 0 || (w.toUlong n &&& w.signMask) == w.signMask

def longToFixnum (n : Int) : ExactInteger := fixnum (w.toUlong n &&& w.datumMask)

/-- `LONG_TO_UNSIGNED_FIXNUM`, which does not mask: a number that does not fit in the
datum would overwrite the type code. -/
def longToUnsignedFixnum (n : Nat) : Option ExactInteger :=
  if n ≤ w.datumMask then some (fixnum n) else none

/-! ## Bignums and machine words -/

/-- `BIGNUM_BITS_TO_DIGITS`. -/
def Word.bitsToDigits (n : Nat) : Nat := (n + (w.digitLength - 1)) / w.digitLength

/-- The loop of `long_to_bignum`; `result_digits` has room for `fuel` digits. -/
def longDigits : Nat → Nat → List Nat
  | 0, _ => []
  | fuel + 1, accumulator =>
      (accumulator &&& (w.radix - 1)) ::
        if accumulator >>> w.digitLength ≠ 0 then
          longDigits fuel (accumulator >>> w.digitLength)
        else []

def longToBignum (n : Int) : Bignum :=
  if n = 0 then makeZero
  else if n = 1 then makeOne false
  else if n = -1 then makeOne true
  else ⟨decide (n < 0), longDigits w (w.bitsToDigits w.objectLength) n.natAbs⟩

/-- The loop of `bignum_to_long`, from the leading digit down, in an `unsigned long`. -/
def bignumToUlong : List Nat → Nat
  | [] => 0
  | d :: ds => ((bignumToUlong ds <<< w.digitLength) + d) % 2 ^ w.objectLength

def bignumToLong (x : Bignum) : Option Int :=
  if x.zeroP then some 0
  else
    let accumulator := w.toLong (bignumToUlong w x.digits)
    if x.negative then w.long (-accumulator) else some accumulator

/-- `UINT_MAX + 1`: an `unsigned int` has 32 bits whatever the width of a `long`. -/
def uintLimit : Nat := 2 ^ 32

/-- `bignum_fits_in_word_p`. The length is compared as an `unsigned int`; the shift is out
of range, and so undefined, when the length itself is not `max_digits`. -/
def bignumFitsInWordP (x : Bignum) (wordLength : Nat) (twosComplement : Bool) :
    Option Bool :=
  if !twosComplement && x.negative then some false
  else do
    let nBits := if twosComplement then wordLength - 1 else wordLength
    guard (0 < nBits)
    let maxDigits := w.bitsToDigits nBits
    if x.length % uintLimit < maxDigits then some true
    else if x.length % uintLimit > maxDigits then some false
    else do
      guard ((x.length - 1) * w.digitLength ≤ nBits)
      let msd := x.ref (x.length - 1)
      let max ← w.nat (2 ^ (nBits - (x.length - 1) * w.digitLength))
      some (decide (msd < max) || (twosComplement && decide (msd = max) && x.negative))

def bignumToInteger (x : Bignum) : Option ExactInteger := do
  if ← bignumFitsInWordP w x (w.fixnumLength + 1) true then
    let n ← bignumToLong w x
    some (longToFixnum w n)
  else
    some (bignum x)

def longToInteger (n : Int) : ExactInteger :=
  if longToFixnumP w n then longToFixnum w n else bignum (longToBignum w n)

/-- The bignum of an operand: `FIXNUM_TO_BIGNUM` of a fixnum. -/
def integerToBignum : ExactInteger → Option Bignum
  | fixnum n => some (longToBignum w (fixnumToLong w n))
  | bignum x => some x
  | sharpF => none

/-- `Mul` of `mul.c`: `SHARP_F` when the product may not fit in a fixnum. -/
def mul (arg1 arg2 : Nat) : Option ExactInteger :=
  let a := fixnumToLong w arg1
  let b := fixnumToLong w arg2
  let sign := decide (a < 0) == decide (b < 0)
  let a := a.natAbs
  let b := b.natAbs
  let mask := 2 ^ w.halfWordSize - 1
  let hiA := (a >>> w.halfWordSize) &&& mask
  let hiB := (b >>> w.halfWordSize) &&& mask
  if 0 < hiA ∧ 0 < hiB then some sharpF
  else
    let loA := a &&& mask
    let loB := b &&& mask
    let loC := (loA * loB) % 2 ^ w.objectLength
    if loC ≥ w.fixnumSignBit then some sharpF
    else
      let middleC := (loA * hiB + hiA * loB) % 2 ^ w.objectLength
      if middleC ≥ 2 ^ (w.datumLength - 1 - w.halfWordSize) then some sharpF
      else
        let c := (loC + (middleC <<< w.halfWordSize)) % 2 ^ w.objectLength
        if longToFixnumP w (w.toLong c) then
          if sign || c == 0 then longToUnsignedFixnum w c
          else longToUnsignedFixnum w (2 ^ w.datumLength - c)
        else some sharpF

/-! ## The operations -/

/-- A binary operation done on bignums, as every operation does unless both operands are
fixnums. -/
def viaBignums (op : Bignum → Bignum → Option Bignum) (n m : ExactInteger) : Option ExactInteger := do
  let x ← integerToBignum w n
  let y ← integerToBignum w m
  let r ← op x y
  bignumToInteger w r

def integerNegate : ExactInteger → Option ExactInteger
  | fixnum n => do
      let r ← w.long (-(fixnumToLong w n))
      some (longToInteger w r)
  | bignum x => bignumToInteger w (bignumNegate x)
  | sharpF => none

def integerAdd : ExactInteger → ExactInteger → Option ExactInteger
  | fixnum n, fixnum m => do
      let r ← w.long (fixnumToLong w n + fixnumToLong w m)
      some (longToInteger w r)
  | n, m => viaBignums w (bignumAdd w) n m

def integerSubtract : ExactInteger → ExactInteger → Option ExactInteger
  | fixnum n, fixnum m => do
      let r ← w.long (fixnumToLong w n - fixnumToLong w m)
      some (longToInteger w r)
  | n, m => viaBignums w (bignumSubtract w) n m

def integerMultiply : ExactInteger → ExactInteger → Option ExactInteger
  | fixnum n, fixnum m => do
      let result ← mul w n m
      if result ≠ sharpF then some result
      else viaBignums w (bignumMultiply w) (fixnum n) (fixnum m)
  | n, m => viaBignums w (bignumMultiply w) n m

/-- A division done on bignums; out of band is `SHARP_F`. -/
def divideViaBignums (op : Bignum → Bignum → Option (Option Bignum)) (n d : ExactInteger) :
    Option ExactInteger := do
  let x ← integerToBignum w n
  let y ← integerToBignum w d
  match ← op x y with
  | none => some sharpF
  | some r => bignumToInteger w r

/-- `integer_quotient`. The operands of `/` are made non-negative first. -/
def integerQuotient : ExactInteger → ExactInteger → Option ExactInteger
  | fixnum n, fixnum d =>
      let lx := fixnumToLong w n
      let ly := fixnumToLong w d
      if ly = 0 then some sharpF
      else
        some (longToInteger w
          (if lx < 0 then
            if ly < 0 then (((-lx).toNat / (-ly).toNat : Nat) : Int)
            else -(((-lx).toNat / ly.toNat : Nat) : Int)
          else
            if ly < 0 then -((lx.toNat / (-ly).toNat : Nat) : Int)
            else ((lx.toNat / ly.toNat : Nat) : Int)))
  | n, d => divideViaBignums w (bignumQuotient w) n d

def integerRemainder : ExactInteger → ExactInteger → Option ExactInteger
  | fixnum n, fixnum d =>
      let lx := fixnumToLong w n
      let ly := fixnumToLong w d
      if ly = 0 then some sharpF
      else
        let ly := if ly < 0 then (-ly).toNat else ly.toNat
        some (longToInteger w
          (if lx < 0 then -(((-lx).toNat % ly : Nat) : Int) else ((lx.toNat % ly : Nat) : Int)))
  | n, d => divideViaBignums w (bignumRemainder w) n d

end MitScheme
