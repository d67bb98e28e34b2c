import MitScheme.Microcode.Bignum

/-!
# Bitwise operations on bignums

The bitwise operations of `bignum.c` read an integer as an infinite row of bits in two's
complement, while a bignum is a sign and a magnitude. Each operation is made from ten loops over
magnitudes: a negative operand is complemented first, and the loop is one that makes up for it.
-/

namespace MitScheme

open Bignum

variable (w : Word)

def bignumBitwiseNot (x : Bignum) : Option Bignum := bignumSubtract w (makeOne true) x

def bitwiseAndc2 (x y : Nat) : Nat := Nat.ldiff x y

def bitwiseAndc1 (x y : Nat) : Nat := Nat.ldiff y x

/-- The loops of `DEFINE_BITWISE_UNSIGNED`, with the assertion that `x` is not the shorter. -/
def bitwiseDigits (op : Nat → Nat → Nat) : List Nat → List Nat → Option (List Nat)
  | xs, [] => some (xs.map fun x => op x 0)
  | [], _ :: _ => none
  | x :: xs, y :: ys => do
      let rs ← bitwiseDigits op xs ys
      some (op x y :: rs)

/-- `DEFINE_BITWISE_UNSIGNED`, once the operands are in order. -/
def bitwiseUnsigned (op : Nat → Nat → Nat) (postop : Bignum → Option Bignum) (x y : Bignum) :
    Option Bignum := do
  let rs ← bitwiseDigits op x.digits y.digits
  postop (trim ⟨false, rs⟩)

/-- `DEFINE_BITWISE_UNSIGNED` with `SWAP`. -/
def bitwiseUnsignedSwap (op : Nat → Nat → Nat) (postop : Bignum → Option Bignum) (x y : Bignum) :
    Option Bignum :=
  let (x, y) := if x.length < y.length then (y, x) else (x, y)
  bitwiseUnsigned op postop x y

/-- `DEFINE_BITWISE_UNSIGNED` with `COMMUTE`. The function it names gets the operands in order,
and so goes straight to its loops, which are those of `commuted`. -/
def bitwiseUnsignedCommute (commuted op : Nat → Nat → Nat) (postop : Bignum → Option Bignum)
    (x y : Bignum) : Option Bignum :=
  if x.length < y.length then bitwiseUnsigned commuted postop y x
  else bitwiseUnsigned op postop x y

def bignumBitwiseAndUnsigned : Bignum → Bignum → Option Bignum :=
  bitwiseUnsignedSwap (· &&& ·) some

/-- `bignum_bitwise_andc2_unsigned`, which commutes to `andc1`. -/
def bignumBitwiseAndc2Unsigned : Bignum → Bignum → Option Bignum :=
  bitwiseUnsignedCommute bitwiseAndc1 bitwiseAndc2 some

/-- `bignum_bitwise_andc1_unsigned`, which commutes to `andc2`. -/
def bignumBitwiseAndc1Unsigned : Bignum → Bignum → Option Bignum :=
  bitwiseUnsignedCommute bitwiseAndc2 bitwiseAndc1 some

def bignumBitwiseXorUnsigned : Bignum → Bignum → Option Bignum :=
  bitwiseUnsignedSwap (· ^^^ ·) some

def bignumBitwiseIorUnsigned : Bignum → Bignum → Option Bignum :=
  bitwiseUnsignedSwap (· ||| ·) some

def bignumBitwiseNorUnsigned : Bignum → Bignum → Option Bignum :=
  bitwiseUnsignedSwap (· ||| ·) (bignumBitwiseNot w)

def bignumBitwiseEqvUnsigned : Bignum → Bignum → Option Bignum :=
  bitwiseUnsignedSwap (· ^^^ ·) (bignumBitwiseNot w)

def bignumBitwiseNandUnsigned : Bignum → Bignum → Option Bignum :=
  bitwiseUnsignedSwap (· &&& ·) (bignumBitwiseNot w)

/-! ## Signs -/

/-- `DEFINE_BITWISE`: the result where `y` is zero and where `x` is, and the loop for each pair of
signs. -/
def defineBitwise (x0 y0 : Option Bignum) (pp pn np nn : Bignum → Bignum → Option Bignum)
    (x y : Bignum) : Option Bignum :=
  if x.zeroP then y0
  else if y.zeroP then x0
  else if !x.negative then
    if !y.negative then pp x y
    else do
      let y ← bignumBitwiseNot w y
      pn x y
  else
    if !y.negative then do
      let x ← bignumBitwiseNot w x
      np x y
    else do
      let x ← bignumBitwiseNot w x
      let y ← bignumBitwiseNot w y
      nn x y

def bignumBitwiseAnd (x y : Bignum) : Option Bignum :=
  defineBitwise w (some makeZero) (some makeZero) bignumBitwiseAndUnsigned
    bignumBitwiseAndc2Unsigned bignumBitwiseAndc1Unsigned (bignumBitwiseNorUnsigned w) x y

def bignumBitwiseAndc2 (x y : Bignum) : Option Bignum :=
  defineBitwise w (some x) (some makeZero) bignumBitwiseAndc2Unsigned
    bignumBitwiseAndUnsigned (bignumBitwiseNorUnsigned w) bignumBitwiseAndc1Unsigned x y

def bignumBitwiseAndc1 (x y : Bignum) : Option Bignum :=
  defineBitwise w (some makeZero) (some y) bignumBitwiseAndc1Unsigned
    (bignumBitwiseNorUnsigned w) bignumBitwiseAndUnsigned bignumBitwiseAndc2Unsigned x y

def bignumBitwiseOrc2Unsigned (x y : Bignum) : Option Bignum := do
  let r ← bignumBitwiseAndc1 w x y
  bignumBitwiseNot w r

def bignumBitwiseOrc1Unsigned (x y : Bignum) : Option Bignum := do
  let r ← bignumBitwiseAndc2 w x y
  bignumBitwiseNot w r

def bignumBitwiseXor (x y : Bignum) : Option Bignum :=
  defineBitwise w (some x) (some y) bignumBitwiseXorUnsigned (bignumBitwiseEqvUnsigned w)
    (bignumBitwiseEqvUnsigned w) bignumBitwiseXorUnsigned x y

def bignumBitwiseIor (x y : Bignum) : Option Bignum :=
  defineBitwise w (some x) (some y) bignumBitwiseIorUnsigned (bignumBitwiseOrc2Unsigned w)
    (bignumBitwiseOrc1Unsigned w) (bignumBitwiseNandUnsigned w) x y

def bignumBitwiseNor (x y : Bignum) : Option Bignum :=
  defineBitwise w (bignumBitwiseNot w x) (bignumBitwiseNot w y) (bignumBitwiseNorUnsigned w)
    bignumBitwiseAndc1Unsigned bignumBitwiseAndc2Unsigned bignumBitwiseAndUnsigned x y

def bignumBitwiseEqv (x y : Bignum) : Option Bignum :=
  defineBitwise w (bignumBitwiseNot w x) (bignumBitwiseNot w y) (bignumBitwiseEqvUnsigned w)
    bignumBitwiseXorUnsigned bignumBitwiseXorUnsigned (bignumBitwiseEqvUnsigned w) x y

def bignumBitwiseOrc2 (x y : Bignum) : Option Bignum :=
  defineBitwise w (some (makeOne true)) (bignumBitwiseNot w y) (bignumBitwiseOrc2Unsigned w)
    bignumBitwiseIorUnsigned (bignumBitwiseNandUnsigned w) (bignumBitwiseOrc1Unsigned w) x y

def bignumBitwiseOrc1 (x y : Bignum) : Option Bignum :=
  defineBitwise w (bignumBitwiseNot w x) (some (makeOne true)) (bignumBitwiseOrc1Unsigned w)
    (bignumBitwiseNandUnsigned w) bignumBitwiseIorUnsigned (bignumBitwiseOrc2Unsigned w) x y

def bignumBitwiseNand (x y : Bignum) : Option Bignum :=
  defineBitwise w (some (makeOne true)) (some (makeOne true)) (bignumBitwiseNandUnsigned w)
    (bignumBitwiseOrc1Unsigned w) (bignumBitwiseOrc2Unsigned w) bignumBitwiseIorUnsigned x y

end MitScheme
