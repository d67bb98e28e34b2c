import MitScheme.Microcode.BignumBitwise
import MitScheme.Microcode.IntegerArithmetic

/-!
# Bitwise operations on integers

`artutl.c`: on two fixnums an operation is the one the machine has for a `long`, and otherwise it
goes through bignums. The machine's operations are those of two's complement.
-/

namespace MitScheme

open ExactInteger
open Int (bitwise land lnot lor testBit_land testBit_lnot testBit_lor xor)

variable (w : Word)

def integerBitwiseNot : ExactInteger → Option ExactInteger
  | fixnum n => some (longToFixnum w (lnot (fixnumToLong w n)))
  | bignum x => do
      let r ← bignumBitwiseNot w x
      some (bignum r)
  | sharpF => none

/-- `DEFINE_BITWISE`. -/
def integerBitwise (op : Int → Int → Int) (bignumOp : Bignum → Bignum → Option Bignum) :
    ExactInteger → ExactInteger → Option ExactInteger
  | fixnum n, fixnum m => some (longToFixnum w (op (fixnumToLong w n) (fixnumToLong w m)))
  | n, m => viaBignums w bignumOp n m

def integerBitwiseAnd : ExactInteger → ExactInteger → Option ExactInteger :=
  integerBitwise w land (bignumBitwiseAnd w)

def integerBitwiseAndc2 : ExactInteger → ExactInteger → Option ExactInteger :=
  integerBitwise w (fun x y => land x (lnot y)) (bignumBitwiseAndc2 w)

def integerBitwiseAndc1 : ExactInteger → ExactInteger → Option ExactInteger :=
  integerBitwise w (fun x y => land y (lnot x)) (bignumBitwiseAndc1 w)

def integerBitwiseXor : ExactInteger → ExactInteger → Option ExactInteger :=
  integerBitwise w xor (bignumBitwiseXor w)

def integerBitwiseIor : ExactInteger → ExactInteger → Option ExactInteger :=
  integerBitwise w lor (bignumBitwiseIor w)

def integerBitwiseNor : ExactInteger → ExactInteger → Option ExactInteger :=
  integerBitwise w (fun x y => lnot (lor x y)) (bignumBitwiseNor w)

def integerBitwiseEqv : ExactInteger → ExactInteger → Option ExactInteger :=
  integerBitwise w (fun x y => lnot (xor x y)) (bignumBitwiseEqv w)

def integerBitwiseOrc2 : ExactInteger → ExactInteger → Option ExactInteger :=
  integerBitwise w (fun x y => lor x (lnot y)) (bignumBitwiseOrc2 w)

def integerBitwiseOrc1 : ExactInteger → ExactInteger → Option ExactInteger :=
  integerBitwise w (fun x y => lor y (lnot x)) (bignumBitwiseOrc1 w)

def integerBitwiseNand : ExactInteger → ExactInteger → Option ExactInteger :=
  integerBitwise w (fun x y => lnot (land x y)) (bignumBitwiseNand w)

/-!
## Bitwise operations on integers

Every operation computes the right bits; what can go wrong is the way back from a bignum, where a
result of `2 ^ 32` digits passes for a fixnum. Two fixnums never get there, and neither does the
complement of an integer, which is a fixnum if and only if the integer is.
-/

open TwosComplement
open Bignum hiding ofInt

variable {w}

/-- The ten binary operations. -/
inductive BitwiseOperation where
  | and | andc2 | andc1 | xor | ior | nor | eqv | orc2 | orc1 | nand
deriving DecidableEq

namespace BitwiseOperation

/-- The boolean function an operation is named after. -/
def bit : BitwiseOperation → Bool → Bool → Bool
  | and, a, b => a && b
  | andc2, a, b => a && !b
  | andc1, a, b => !a && b
  | xor, a, b => a ^^ b
  | ior, a, b => a || b
  | nor, a, b => !(a || b)
  | eqv, a, b => !(a ^^ b)
  | orc2, a, b => a || !b
  | orc1, a, b => !a || b
  | nand, a, b => !(a && b)

/-- The function of `artutl.c`. -/
def run (w : Word) : BitwiseOperation → ExactInteger → ExactInteger → Option ExactInteger
  | and => integerBitwiseAnd w
  | andc2 => integerBitwiseAndc2 w
  | andc1 => integerBitwiseAndc1 w
  | xor => integerBitwiseXor w
  | ior => integerBitwiseIor w
  | nor => integerBitwiseNor w
  | eqv => integerBitwiseEqv w
  | orc2 => integerBitwiseOrc2 w
  | orc1 => integerBitwiseOrc1 w
  | nand => integerBitwiseNand w

end BitwiseOperation

theorem bitwise_inRange (f : Bool → Bool → Bool) {p q : Int} (hp : InFixnumRange w p)
    (hq : InFixnumRange w q) : InFixnumRange w (bitwise f p q) :=
  bitwise_range f hp hq

/-- **`DEFINE_BITWISE` of `artutl.c`**, for a machine operation and a bignum operation that compute
the same boolean function. -/
theorem integerBitwise_returns_iff {f : Bool → Bool → Bool} (op : Int → Int → Int)
    {bignumOp : Bignum → Bignum → Option Bignum} (hop : ∀ p q, op p q = bitwise f p q)
    (hbignum : ∀ p q, bignumOp (Bignum.ofInt w p) (Bignum.ofInt w q)
      = some (Bignum.ofInt w (bitwise f p q))) (p q : Int) :
    Returns w (integerBitwise w op bignumOp (ofInt w p) (ofInt w q)) (bitwise f p q)
      ↔ LengthSurvives w (bitwise f p q) := by
  have hvia := viaBignums_returns_iff (w := w) (hbignum p q)
  rcases fixnums_or_not (w := w) p q with ⟨hp, hq⟩ | ⟨x, hx⟩ | ⟨n, x, hn, hx⟩
  · have hr := bitwise_inRange f hp hq
    rw [ofInt_of_inRange hp, ofInt_of_inRange hq, integerBitwise, fixnumToLong_emod hp,
      fixnumToLong_emod hq, hop, longToFixnum_eq hr, returns_iff]
    exact iff_of_true rfl (lengthSurvives_of_inRange hr)
  · rw [hx] at hvia ⊢
    exact hvia
  · rw [hn, hx] at hvia ⊢
    exact hvia

theorem op_eq_bitwise {f : Bool → Bool → Bool} {r p q : Int}
    (h : ∀ i, r.testBit i = f (p.testBit i) (q.testBit i)) : r = bitwise f p q :=
  (bitwise_eq fun i => (h i).symm).symm

/-- **The ten operations**, exact if and only if the length of the result survives the cast. -/
theorem run_returns_iff (o : BitwiseOperation) (p q : Int) :
    Returns w (o.run w (ofInt w p) (ofInt w q)) (bitwise o.bit p q)
      ↔ LengthSurvives w (bitwise o.bit p q) := by
  cases o with
  | and =>
      exact integerBitwise_returns_iff land
        (fun p q => op_eq_bitwise (testBit_land p q)) bignumBitwiseAnd_ofInt p q
  | andc2 =>
      exact integerBitwise_returns_iff (fun x y => land x (lnot y))
        (fun p q => op_eq_bitwise fun i => by rw [testBit_land, testBit_lnot])
        bignumBitwiseAndc2_ofInt p q
  | andc1 =>
      exact integerBitwise_returns_iff (fun x y => land y (lnot x))
        (fun p q => op_eq_bitwise fun i => by
          rw [testBit_land, testBit_lnot, Bool.and_comm])
        bignumBitwiseAndc1_ofInt p q
  | xor =>
      exact integerBitwise_returns_iff xor
        (fun p q => op_eq_bitwise (Int.testBit_lxor p q)) bignumBitwiseXor_ofInt p q
  | ior =>
      exact integerBitwise_returns_iff lor
        (fun p q => op_eq_bitwise (testBit_lor p q)) bignumBitwiseIor_ofInt p q
  | nor =>
      exact integerBitwise_returns_iff (fun x y => lnot (lor x y))
        (fun p q => op_eq_bitwise fun i => by rw [testBit_lnot, testBit_lor])
        bignumBitwiseNor_ofInt p q
  | eqv =>
      exact integerBitwise_returns_iff (fun x y => lnot (xor x y))
        (fun p q => op_eq_bitwise fun i => by rw [testBit_lnot, Int.testBit_lxor])
        bignumBitwiseEqv_ofInt p q
  | orc2 =>
      exact integerBitwise_returns_iff (fun x y => lor x (lnot y))
        (fun p q => op_eq_bitwise fun i => by rw [testBit_lor, testBit_lnot])
        bignumBitwiseOrc2_ofInt p q
  | orc1 =>
      exact integerBitwise_returns_iff (fun x y => lor y (lnot x))
        (fun p q => op_eq_bitwise fun i => by
          rw [testBit_lor, testBit_lnot, Bool.or_comm])
        bignumBitwiseOrc1_ofInt p q
  | nand =>
      exact integerBitwise_returns_iff (fun x y => lnot (land x y))
        (fun p q => op_eq_bitwise fun i => by rw [testBit_lnot, testBit_land])
        bignumBitwiseNand_ofInt p q

theorem lnot_inRange_iff {z : Int} : InFixnumRange w (lnot z) ↔ InFixnumRange w z := by
  rw [lnot_eq]
  unfold InFixnumRange
  omega

theorem integerBitwiseNot_ofInt (z : Int) :
    integerBitwiseNot w (ofInt w z) = some (ofInt w (lnot z)) := by
  by_cases h : InFixnumRange w z
  · rw [ofInt_of_inRange h, integerBitwiseNot, fixnumToLong_emod h,
      longToFixnum_eq (lnot_inRange_iff.mpr h)]
  · rw [ofInt_of_not_inRange h, integerBitwiseNot, bignumBitwiseNot_ofInt,
      ofInt_of_not_inRange fun hr => h (lnot_inRange_iff.mp hr)]
    rfl

/-! ## Results by their bits -/

/-- An operation returns the canonical object of the integer with these bits. -/
def ReturnsBits (w : Word) (r : Option ExactInteger) (bits : Nat → Bool) : Prop :=
  ∃ object, r = some object ∧ object.Canonical w ∧ ∀ i, (object.value w).testBit i = bits i

theorem returnsBits_iff {r : Option ExactInteger} {z : Int} :
    ReturnsBits w r z.testBit ↔ Returns w r z := by
  constructor
  · rintro ⟨object, hr, hc, hbits⟩
    exact ⟨object, hr, hc, eq_of_testBit_eq hbits⟩
  · rintro ⟨object, hr, hc, rfl⟩
    exact ⟨object, hr, hc, fun _ => rfl⟩

/-- **The bitwise operations.** The complement of an integer always has the complements of its
bits; a binary operation has the bits it is named after, if and only if the length of the result
survives the cast in `bignum_fits_in_word_p`. -/
theorem bitwise_operations {a b : ExactInteger} (ha : a.Canonical w) (hb : b.Canonical w) :
    ReturnsBits w (integerBitwiseNot w a) (fun i => !(a.value w).testBit i)
    ∧ ∀ o : BitwiseOperation,
      ReturnsBits w (o.run w a b) (fun i => o.bit ((a.value w).testBit i) ((b.value w).testBit i))
        ↔ LengthSurvives w (bitwise o.bit (a.value w) (b.value w)) := by
  have hp := canonical_iff.mp ⟨ha, rfl⟩
  have hq := canonical_iff.mp ⟨hb, rfl⟩
  refine ⟨?_, fun o => ?_⟩
  · have hnot := integerBitwiseNot_ofInt (w := w) (a.value w)
    rw [← hp] at hnot
    simp only [← testBit_lnot]
    exact returnsBits_iff.mpr (returns_iff.mpr hnot)
  · have hrun := run_returns_iff (w := w) o (a.value w) (b.value w)
    rw [← hp, ← hq] at hrun
    simp only [← Int.testBit_bitwise]
    exact returnsBits_iff.trans hrun

theorem bitwise_operations_bignum_fixnum :
    ReturnsBits w64 (integerBitwiseNot w64 (ofInt w64 (2 ^ 100)))
      (fun i => !((ofInt w64 (2 ^ 100)).value w64).testBit i)
    ∧ ∀ o : BitwiseOperation,
      ReturnsBits w64 (o.run w64 (ofInt w64 (2 ^ 100)) (ofInt w64 (-3)))
          (fun i => o.bit (((ofInt w64 (2 ^ 100)).value w64).testBit i)
            (((ofInt w64 (-3)).value w64).testBit i))
        ↔ LengthSurvives w64 (bitwise o.bit ((ofInt w64 (2 ^ 100)).value w64)
            ((ofInt w64 (-3)).value w64)) :=
  bitwise_operations (canonical_ofInt _) (canonical_ofInt _)

/-- **The inclusive or of zero with the radix to the power `2 ^ 32 - 1`** is not that power: its
`2 ^ 32` digits pass for none. -/
theorem bitwise_ior_radixPower :
    (bignum (radixPower (2 ^ 32 - 1))).Canonical w64 ∧ (fixnum 0).Canonical w64
      ∧ ¬ ReturnsBits w64 (BitwiseOperation.ior.run w64 (bignum (radixPower (2 ^ 32 - 1))) (fixnum 0))
          (fun i => BitwiseOperation.ior.bit
            (((bignum (radixPower (2 ^ 32 - 1))).value w64).testBit i)
            (((fixnum 0).value w64).testBit i)) := by
  have ha : (bignum (radixPower (2 ^ 32 - 1))).Canonical w64 := canonical_radixPower (by decide)
  have hb : (fixnum 0).Canonical w64 := Nat.two_pow_pos _
  refine ⟨ha, hb, fun h => ?_⟩
  have hp := canonical_iff.mp ⟨ha, rfl⟩
  have hq := canonical_iff.mp ⟨hb, rfl⟩
  have hzero : (fixnum 0).value w64 = 0 := by decide
  have hbits : bitwise BitwiseOperation.ior.bit
      ((bignum (radixPower (2 ^ 32 - 1))).value w64) ((fixnum 0).value w64)
        = (bignum (radixPower (2 ^ 32 - 1))).value w64 :=
    bitwise_eq fun i => by rw [hzero, testBit_zero]; exact Bool.or_false _
  have hiff := run_returns_iff (w := w64) .ior
    ((bignum (radixPower (2 ^ 32 - 1))).value w64) ((fixnum 0).value w64)
  rw [← hp, hbits] at hiff
  simp only [← Int.testBit_bitwise, hbits] at h
  have hcount : digitCount w64 ((bignum (radixPower (2 ^ 32 - 1))).value w64) = uintLimit := by
    change digitCount w64 ((radixPower (2 ^ 32 - 1)).toInt w64) = uintLimit
    rw [digitCount_radixPower]
    rfl
  refine not_lengthSurvives hcount.ge ?_ (hiff.mp (returnsBits_iff.mp h))
  rw [hcount, Nat.mod_self]
  omega

end MitScheme
