import Mathlib.Data.Nat.Bitwise
import Mathlib.Tactic.Ring
import Mathlib.Tactic.Linarith

/-!
# Machine words

The microcode is written for a `long` of either 32 or 64 bits, and every constant
of `object.h` and `bignmint.h` is computed from that width. The model does the
same: a `Word` is given by the length of half a bignum digit, and everything else
follows from it.

C leaves signed overflow undefined, so an expression of type `long` denotes
nothing when its value does not fit. `Word.long` and `Word.nat` are that check: a
computation in the model is an `Option`, and `none` is either such an overflow or
a failed `BIGNUM_ASSERT`. Proving that a function returns `some` therefore proves
that none of its intermediate results leaves the machine word.
-/

namespace MitScheme

/-- The width of a machine word, by way of `BIGNUM_HALF_DIGIT_LENGTH`. -/
structure Word where
  /-- `BIGNUM_HALF_DIGIT_LENGTH`. -/
  half : Nat
  /-- Wide enough for the type code, the sign and the middle product of `Mul`. -/
  le_half : 6 ≤ half

/-- A `long` of 64 bits. -/
def w64 : Word := ⟨31, by decide⟩

namespace Word

variable (w : Word)

/-- `BIGNUM_DIGIT_LENGTH`. -/
def digitLength : Nat := 2 * w.half

/-- `OBJECT_LENGTH`, the number of bits of a `long`. -/
def objectLength : Nat := w.digitLength + 2

/-- `DATUM_LENGTH`: the type code takes six bits. -/
def datumLength : Nat := w.objectLength - 6

/-- `FIXNUM_LENGTH`, which does not include the sign. -/
def fixnumLength : Nat := w.datumLength - 1

/-- `BIGNUM_RADIX_ROOT`. -/
def radixRoot : Nat := 2 ^ w.half

/-- `BIGNUM_RADIX`. -/
def radix : Nat := 2 ^ w.digitLength

/-- `BIGNUM_HALF_DIGIT_MASK`. -/
def halfDigitMask : Nat := w.radixRoot - 1

/-- `HALF_WORD_SIZE` of `mul.c`. -/
def halfWordSize : Nat := w.objectLength / 2

/-- `LONG_MAX + 1`. -/
def longLimit : Nat := 2 ^ (w.objectLength - 1)

/-- The value of a `long` expression. -/
def long (x : Int) : Option Int :=
  if -(w.longLimit : Int) ≤ x ∧ x < w.longLimit then some x else none

/-- The value of a `long` expression whose terms are all non-negative. -/
def nat (n : Nat) : Option Nat := if n < w.longLimit then some n else none

def hdLow (digit : Nat) : Nat := digit &&& w.halfDigitMask

def hdHigh (digit : Nat) : Nat := digit >>> w.half

def hdCons (high low : Nat) : Nat := (high <<< w.half) ||| low

theorem radixRoot_pos : 0 < w.radixRoot := Nat.two_pow_pos _

theorem radixRoot_ge : 64 ≤ w.radixRoot :=
  Nat.pow_le_pow_right (n := 2) (by decide) w.le_half

theorem radix_eq : w.radix = w.radixRoot * w.radixRoot := by
  unfold radix radixRoot digitLength
  rw [← Nat.pow_add, Nat.two_mul]

theorem radix_pos : 0 < w.radix := Nat.two_pow_pos _

theorem radix_ge : 4096 ≤ w.radix := by
  rw [radix_eq]
  exact Nat.mul_le_mul w.radixRoot_ge w.radixRoot_ge

theorem longLimit_eq : w.longLimit = 2 * w.radix := by
  unfold longLimit radix objectLength
  rw [show w.digitLength + 2 - 1 = w.digitLength + 1 by omega]
  omega

theorem fixnumLength_lt : w.fixnumLength < w.digitLength := by
  have := w.le_half
  unfold fixnumLength datumLength objectLength digitLength
  omega

theorem two_pow_fixnumLength_lt : 2 ^ w.fixnumLength < w.radix :=
  Nat.pow_lt_pow_right (by decide) w.fixnumLength_lt

@[simp] theorem hdLow_eq (d : Nat) : w.hdLow d = d % w.radixRoot := by
  exact Nat.and_two_pow_sub_one_eq_mod d w.half

@[simp] theorem hdHigh_eq (d : Nat) : w.hdHigh d = d / w.radixRoot := by
  exact Nat.shiftRight_eq_div_pow d w.half

theorem hdCons_eq {high low : Nat} (h : low < w.radixRoot) :
    w.hdCons high low = high * w.radixRoot + low := by
  unfold hdCons
  rw [← Nat.shiftLeft_add_eq_or_of_lt h, Nat.shiftLeft_eq]
  rfl

theorem hdCons_lt {high low : Nat} (hh : high < w.radixRoot) (hl : low < w.radixRoot) :
    w.hdCons high low < w.radix := by
  rw [w.hdCons_eq hl, w.radix_eq]
  nlinarith

theorem mod_radixRoot_lt (d : Nat) : d % w.radixRoot < w.radixRoot :=
  Nat.mod_lt d w.radixRoot_pos

theorem div_radixRoot_lt {d : Nat} (h : d < w.radix) : d / w.radixRoot < w.radixRoot := by
  rw [Nat.div_lt_iff_lt_mul w.radixRoot_pos, ← w.radix_eq]
  exact h

theorem nat_eq {n : Nat} (h : n < w.longLimit) : w.nat n = some n := if_pos h

theorem nat_eq_of_lt {n : Nat} (h : n < 2 * w.radix) : w.nat n = some n :=
  w.nat_eq (w.longLimit_eq ▸ h)

theorem long_eq {x : Int} (h : -(w.longLimit : Int) ≤ x ∧ x < w.longLimit) :
    w.long x = some x := if_pos h

end Word

end MitScheme
