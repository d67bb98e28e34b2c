import MitScheme.Microcode.Word
import Mathlib.Data.List.DropRight

/-!
# Bignums

The functions of `bignum.c` that exact integer arithmetic goes through, in the
source's order. A bignum is a sign and a list of digits, least significant first;
a loop that scans a digit array upwards is a recursion over that list, and a loop
that scans downwards (`*--scan`) is the recursion that treats the tail first.

Storage is unbounded: neither running out of heap nor the assertion
`length <= BIGNUM_LENGTH_MAX` of `bignum_allocate`, which the comment on that
constant says the heap cannot reach, is part of the model.
-/

namespace MitScheme

/-- A bignum: the header's sign bit, and the digits with the least significant first. -/
structure Bignum where
  /-- `BIGNUM_NEGATIVE_P`. -/
  negative : Bool
  /-- The digits; their number is `BIGNUM_LENGTH`. -/
  digits : List Nat
deriving Repr, DecidableEq

namespace Bignum

/-- `BIGNUM_LENGTH`. -/
def length (x : Bignum) : Nat := x.digits.length

/-- `BIGNUM_ZERO_P`. -/
def zeroP (x : Bignum) : Bool := x.length == 0

/-- `BIGNUM_REF`. -/
def ref (x : Bignum) (index : Nat) : Nat := x.digits.getD index 0

/-- `bignum_make_zero`. -/
def makeZero : Bignum := ⟨false, []⟩

/-- `bignum_make_one`. -/
def makeOne (negative : Bool) : Bignum := ⟨negative, [1]⟩

/-- `bignum_new_sign`, and `bignum_maybe_new_sign` up to sharing. -/
def newSign (x : Bignum) (negative : Bool) : Bignum := ⟨negative, x.digits⟩

/-- `bignum_trim`: drop the leading zeros, and the sign with the last digit. -/
def trim (x : Bignum) : Bignum :=
  let digits := x.digits.rdropWhile (· == 0)
  if digits.length < x.length then
    ⟨digits.length != 0 && x.negative, digits⟩
  else
    x

/-- `bignum_digit_to_bignum`. -/
def digitToBignum (digit : Nat) (negative : Bool) : Bignum :=
  if digit = 0 then makeZero else ⟨negative, [digit]⟩

end Bignum

/-- `enum bignum_comparison`. -/
inductive BignumComparison where
  | equal
  | less
  | greater
deriving Repr, DecidableEq

open Bignum BignumComparison

variable (w : Word)

/-- `bignum_compare_unsigned`, the scan from the leading digit down. -/
def compareDigits : List Nat → List Nat → BignumComparison
  | x :: xs, y :: ys =>
      match compareDigits xs ys with
      | equal => if x < y then less else if y < x then greater else equal
      | other => other
  | _, _ => equal

def bignumCompareUnsigned (x y : Bignum) : BignumComparison :=
  if x.length < y.length then less
  else if y.length < x.length then greater
  else compareDigits x.digits y.digits

/-! ## Addition and subtraction -/

/-- The carry loop of `bignum_add_unsigned` over what is left of `x`. -/
def addCarry : List Nat → Option (List Nat × Nat)
  | [] => some ([], 1)
  | x :: xs => do
      let sum ← w.nat (x + 1)
      if sum < w.radix then
        some (sum :: xs, 0)
      else
        let (rs, carry) ← addCarry xs
        some ((sum - w.radix) :: rs, carry)

/-- The digit loop of `bignum_add_unsigned`; `x` is at least as long as `y`. -/
def addDigits : List Nat → List Nat → Nat → Option (List Nat × Nat)
  | xs, [], carry => if carry ≠ 0 then addCarry w xs else some (xs, 0)
  | [], _ :: _, _ => none
  | x :: xs, y :: ys, carry => do
      let sum ← w.nat (x + y + carry)
      if sum < w.radix then
        let (rs, carry) ← addDigits xs ys 0
        some (sum :: rs, carry)
      else
        let (rs, carry) ← addDigits xs ys 1
        some ((sum - w.radix) :: rs, carry)

def bignumAddUnsigned (x y : Bignum) (negative : Bool) : Option Bignum := do
  let (x, y) := if y.length > x.length then (y, x) else (x, y)
  let (rs, carry) ← addDigits w x.digits y.digits 0
  if carry ≠ 0 then
    some ⟨negative, rs ++ [1]⟩
  else
    some ⟨rs.length != 0 && negative, rs⟩

/-- The borrow loop of `bignum_subtract_unsigned` over what is left of `x`. -/
def subtractBorrow : List Nat → Option (List Nat)
  | [] => none
  | x :: xs => do
      let difference ← w.long ((x : Int) - 1)
      if difference < 0 then
        let rs ← subtractBorrow xs
        some ((difference + w.radix).toNat :: rs)
      else
        some (difference.toNat :: xs)

/-- The digit loop of `bignum_subtract_unsigned`; a borrow left over at the end of `x`
is the assertion `borrow == 0` failing. -/
def subtractDigits : List Nat → List Nat → Nat → Option (List Nat)
  | xs, [], borrow => if borrow ≠ 0 then subtractBorrow w xs else some xs
  | [], _ :: _, _ => none
  | x :: xs, y :: ys, borrow => do
      let difference ← w.long ((x : Int) - y - borrow)
      if difference < 0 then
        let rs ← subtractDigits xs ys 1
        some ((difference + w.radix).toNat :: rs)
      else
        let rs ← subtractDigits xs ys 0
        some (difference.toNat :: rs)

def bignumSubtractUnsigned (x y : Bignum) : Option Bignum :=
  match bignumCompareUnsigned x y with
  | equal => some makeZero
  | less => do
      let rs ← subtractDigits w y.digits x.digits 0
      some (trim ⟨true, rs⟩)
  | greater => do
      let rs ← subtractDigits w x.digits y.digits 0
      some (trim ⟨false, rs⟩)

def bignumAdd (x y : Bignum) : Option Bignum :=
  if x.zeroP then some y
  else if y.zeroP then some x
  else if x.negative then
    if y.negative then bignumAddUnsigned w x y true else bignumSubtractUnsigned w y x
  else
    if y.negative then bignumSubtractUnsigned w x y else bignumAddUnsigned w x y false

def bignumSubtract (x y : Bignum) : Option Bignum :=
  if x.zeroP then
    if y.zeroP then some y else some (y.newSign (!y.negative))
  else if y.zeroP then some x
  else if x.negative then
    if y.negative then bignumSubtractUnsigned w y x else bignumAddUnsigned w x y true
  else
    if y.negative then bignumAddUnsigned w x y false else bignumSubtractUnsigned w x y

def bignumNegate (x : Bignum) : Bignum :=
  if x.zeroP then x else x.newSign (!x.negative)

/-! ## Multiplication -/

/-- One round of the inner loop of `bignum_multiply_unsigned`: the digit to store and
the carry. -/
def multiplyStep (xDigit yDigit r carry : Nat) : Option (Nat × Nat) := do
  let xLow := w.hdLow xDigit
  let xHigh := w.hdHigh xDigit
  let yLow := w.hdLow yDigit
  let yHigh := w.hdHigh yDigit
  let productLow ← w.nat (r + xLow * yLow + w.hdLow carry)
  let productHigh ← w.nat
    (xHigh * yLow + xLow * yHigh + w.hdHigh productLow + w.hdHigh carry)
  let carry ← w.nat (xHigh * yHigh + w.hdHigh productHigh)
  some (w.hdCons (w.hdLow productHigh) (w.hdLow productLow), carry)

/-- The inner loop of `bignum_multiply_unsigned`, over `y` and the destination. -/
def multiplyInner (xDigit : Nat) : List Nat → List Nat → Nat → Option (List Nat)
  | [], r :: rs, carry => do
      let sum ← w.nat (r + carry)
      some (sum :: rs)
  | y :: ys, r :: rs, carry => do
      let (digit, carry) ← multiplyStep w xDigit y r carry
      let rs ← multiplyInner xDigit ys rs carry
      some (digit :: rs)
  | _, [], _ => none

/-- The outer loop of `bignum_multiply_unsigned`; each round starts one digit further
into the destination. -/
def multiplyOuter (ys : List Nat) : List Nat → List Nat → Option (List Nat)
  | [], rs => some rs
  | x :: xs, rs => do
      match ← multiplyInner w x ys rs 0 with
      | [] => none
      | r :: rs => do
          let rs ← multiplyOuter ys xs rs
          some (r :: rs)

def bignumMultiplyUnsigned (x y : Bignum) (negative : Bool) : Option Bignum := do
  let (x, y) := if y.length > x.length then (y, x) else (x, y)
  let rs ← multiplyOuter w y.digits x.digits (List.replicate (x.length + y.length) 0)
  some (trim ⟨negative, rs⟩)

/-- The loop of `bignum_destructive_scale_up`, with the carry out. -/
def scaleUpDigits (factor : Nat) : List Nat → Nat → Option (List Nat × Nat)
  | [], carry => some ([], carry)
  | twoDigits :: ds, carry => do
      let productLow ← w.nat (factor * w.hdLow twoDigits + w.hdLow carry)
      let productHigh ← w.nat
        (factor * w.hdHigh twoDigits + w.hdHigh productLow + w.hdHigh carry)
      let (ds, carry) ← scaleUpDigits factor ds (w.hdHigh productHigh)
      some (w.hdCons (w.hdLow productHigh) (w.hdLow productLow) :: ds, carry)

/-- `bignum_destructive_scale_up`, with its two assertions. -/
def bignumDestructiveScaleUp (digits : List Nat) (factor : Nat) : Option (List Nat) := do
  guard (1 < factor ∧ factor < w.radixRoot)
  let (ds, carry) ← scaleUpDigits w factor digits 0
  guard (carry = 0)
  some ds

def bignumMultiplyUnsignedSmallFactor (x : Bignum) (y : Nat) (negative : Bool) :
    Option Bignum := do
  let ds ← bignumDestructiveScaleUp w (x.digits ++ [0]) y
  some (trim ⟨negative, ds⟩)

def bignumMultiply (x y : Bignum) : Option Bignum :=
  let negative := if x.negative then !y.negative else y.negative
  if x.zeroP then some x
  else if y.zeroP then some y
  else if x.length = 1 ∧ x.ref 0 = 1 then some (y.newSign negative)
  else if x.length = 1 ∧ x.ref 0 < w.radixRoot then
    bignumMultiplyUnsignedSmallFactor w y (x.ref 0) negative
  else if y.length = 1 ∧ y.ref 0 = 1 then some (x.newSign negative)
  else if y.length = 1 ∧ y.ref 0 < w.radixRoot then
    bignumMultiplyUnsignedSmallFactor w x (y.ref 0) negative
  else bignumMultiplyUnsigned w x y negative

end MitScheme
