import MitScheme.Microcode.BignumMeasures

/-!
# Shifting a bignum

The shifts of `bignum.c`. Each function allocates a result whose length it predicts from the leading
digit, and then writes the digits one after another. In the model the digits are a list, and a
function returns only if the list is as long as the result: a digit too few would be left as it was
in the heap, and a digit too many would be written past the end. Reading a digit past the end of the
operand gives `none` as well.

A digit is shifted left as a word, and what leaves it on the left is cut off by the mask.
-/

namespace MitScheme

open BitCounts DigitList TwosComplement Bignum
open Option (bind_eq_bind bind_some)
open Nat (digits shiftRight_eq_div_pow two_pow_pos)

variable (w : Word)

/-- How many digits `delta + m` bits take; the sum is one of `unsigned long`. -/
def shiftedLength (delta m : Nat) : Nat :=
  let sum := (delta + m) % 2 ^ w.objectLength
  sum / w.digitLength + if sum % w.digitLength ≠ 0 then 1 else 0

/-- The loop of `bignum_shift_left`: the digits and what is left in `temp`. -/
def shiftLeftDigits (shift : Nat) : List Nat → Nat → List Nat × Nat
  | [], temp => ([], temp)
  | digit :: ds, temp =>
      let (rs, out) := shiftLeftDigits shift ds (digit >>> (w.digitLength - shift))
      ((((digit <<< shift) &&& (w.radix - 1)) ||| temp) :: rs, out)

def bignumShiftLeft (n : Bignum) (m : Nat) : Option Bignum :=
  let ln := n.length
  if m = 0 || n.zeroP then some n
  else
    let delta := ulongLengthInBits w (n.ref (ln - 1))
    let zeroes := m / w.digitLength
    let shift := m % w.digitLength
    let ln2 := (ln - 1) + shiftedLength w delta m
    let digits :=
      if shift = 0 then n.digits
      else
        let (rs, temp) := shiftLeftDigits w shift n.digits 0
        rs ++ if temp ≠ 0 then [temp] else []
    if zeroes + digits.length = ln2 then some ⟨n.negative, List.replicate zeroes 0 ++ digits⟩
    else none

/-- The loop of `unsigned_long_to_shifted_bignum`; an `unsigned long` has at most `fuel` digits. -/
def ulongDigits : Nat → Nat → List Nat
  | 0, _ => []
  | fuel + 1, n =>
      if 0 < n then (n &&& (w.radix - 1)) :: ulongDigits fuel (n >>> w.digitLength) else []

def unsignedLongToShiftedBignum (n m : Nat) (sign : Bool) : Option Bignum :=
  if n = 0 then some makeZero
  else
    let delta := ulongLengthInBits w n
    let zeroes := m / w.digitLength
    let shift := m % w.digitLength
    let ln := shiftedLength w delta m
    let digits := (((n <<< shift) % 2 ^ w.objectLength) &&& (w.radix - 1))
      :: ulongDigits w (w.bitsToDigits w.objectLength) (n >>> (w.digitLength - shift))
    if zeroes + digits.length = ln then some ⟨sign, List.replicate zeroes 0 ++ digits⟩ else none

def bignumNonnegativeOneBits (size position : Nat) : Option Bignum := do
  let x ← bignumShiftLeft w (makeOne true) size
  let y ← bignumBitwiseNot w x
  bignumShiftLeft w y position

def bignumNegativeZeroBits (n m : Nat) : Option Bignum := do
  let x ← bignumNonnegativeOneBits w n m
  bignumBitwiseNot w x

/-- The loop of `bignum_shift_right_unsigned` from the second digit on, with what it writes at
the end. -/
def shiftRightDigits (bits : Nat) : List Nat → Nat → List Nat
  | [], extra => if extra ≠ 0 then [extra] else []
  | digit :: ds, extra =>
      let mask := 2 ^ bits - 1
      let shift := w.digitLength - bits
      (((digit &&& mask) <<< shift) ||| extra) :: shiftRightDigits bits ds (digit >>> bits)

/-- `bignum_shift_right_unsigned`, with its assertion. -/
def bignumShiftRightUnsigned (n : Bignum) (digits bits : Nat) : Option Bignum := do
  let top := if 0 < n.length ∧ n.ref (n.length - 1) >>> bits = 0 then 1 else 0
  let rs ← (if bits = 0 then some (n.digits.drop digits)
    else
      match n.digits.drop digits with
      | [] => none
      | digit :: ds => some (shiftRightDigits w bits ds (digit >>> bits)))
  guard ((rs.length : Int) = n.length - digits - top)
  some ⟨false, rs⟩

def bignumShiftRight (n : Bignum) (m : Nat) : Option Bignum :=
  let digits := m / w.digitLength
  let bits := m % w.digitLength
  if digits ≥ n.length then some (if n.negative then makeOne true else makeZero)
  else if n.negative then do
    let x ← bignumBitwiseNot w n
    let y ← bignumShiftRightUnsigned w x digits bits
    bignumBitwiseNot w y
  else bignumShiftRightUnsigned w n digits bits

variable {w}

/-! ## Shifting left -/

variable {s a k m : Nat} {z : Int} {sign : Bool}

theorem shiftLeft_and (hs : s ≤ w.digitLength) (d : Nat) :
    (d <<< s) &&& (w.radix - 1) = (d &&& (2 ^ (w.digitLength - s) - 1)) <<< s := by
  rw [Word.radix, Nat.and_two_pow_sub_one_eq_mod, Nat.and_two_pow_sub_one_eq_mod, Nat.shiftLeft_eq,
    Nat.shiftLeft_eq, ← Nat.mul_mod_mul_right, ← Nat.pow_add, Nat.sub_add_cancel hs]

theorem shiftLeftDigits_eq {s : Nat} (hs : s ≤ w.digitLength) :
    ∀ (ds : List Nat) (temp : Nat), shiftLeftDigits w s ds temp = normalizationDigits w s ds temp
  | [], _ => rfl
  | d :: ds, temp => by
      rw [shiftLeftDigits, normalizationDigits, shiftLeftDigits_eq hs ds, shiftLeft_and hs]

/-- **The digits `bignum_shift_left` writes above the zeros.** -/
theorem shiftLeftDigits_digits (hs : s ≤ w.digitLength) (v : Nat) :
    (shiftLeftDigits w s (digits w.radix v) 0).1
        ++ (if (shiftLeftDigits w s (digits w.radix v) 0).2 ≠ 0
          then [(shiftLeftDigits w s (digits w.radix v) 0).2] else [])
      = digits w.radix (v * 2 ^ s) := by
  obtain ⟨hbelow, hlen, hout, hvalue⟩ := normalizationDigits_spec hs
    (below_digits w.one_lt_radix v) (two_pow_pos s)
  rw [value_digits, Nat.add_zero] at hvalue
  rw [shiftLeftDigits_eq hs]
  generalize normalizationDigits w s (digits w.radix v) 0 = r at *
  obtain ⟨rs, temp⟩ := r
  have hpow := two_pow_pos s
  by_cases htemp : temp = 0
  · rw [htemp, Nat.mul_zero, Nat.add_zero] at hvalue
    rw [if_neg (not_not.mpr htemp), List.append_nil, ← hvalue]
    refine eq_digits_of_pow_le w.one_lt_radix hbelow fun k hk => ?_
    change w.radix ^ k ≤ w.value rs
    rw [hvalue]
    exact (pow_length_le w.one_lt_radix (hlen.symm.trans hk)).trans (Nat.le_mul_of_pos_right _ hpow)
  · have hall : w.value (rs ++ [temp]) = v * 2 ^ s := by
      rw [value_append, value_cons, value_nil, Nat.mul_zero, Nat.add_zero, hlen, hvalue]
    have hlt : temp < w.radix :=
      hout.trans_le (Nat.pow_le_pow_right (by decide) hs)
    rw [if_pos htemp, ← hall]
    refine eq_digits_of_pow_le w.one_lt_radix (below_append.mpr ⟨hbelow, by simpa using hlt⟩)
      fun k hk => ?_
    have hk' : k = (digits w.radix v).length := by
      rw [List.length_append, List.length_singleton] at hk
      omega
    change w.radix ^ k ≤ w.value (rs ++ [temp])
    rw [hall, ← hvalue, hk']
    exact (Nat.le_mul_of_pos_right _ (Nat.pos_of_ne_zero htemp)).trans (Nat.le_add_left _ _)

/-- The bit length of the leading digit. -/
def leadingLength (w : Word) (z : Int) : Nat :=
  Nat.size ((ofInt w z).ref ((ofInt w z).length - 1))

theorem size_eq_leadingLength (hz : z ≠ 0) :
    Nat.size z.natAbs = leadingLength w z + w.digitLength * (digitCount w z - 1) := by
  have hlead := leading_digit (w := w) hz
  rw [leadingLength, hlead.1]
  exact size_div_two_pow hlead.2

theorem leadingLength_pos (hz : z ≠ 0) : 0 < leadingLength w z := by
  have hlead := leading_digit (w := w) hz
  rw [leadingLength, hlead.1, Nat.size_pos]
  exact Nat.div_pos hlead.2 (two_pow_pos _)

theorem leadingLength_le (z : Int) : leadingLength w z ≤ w.digitLength :=
  Nat.size_le.mpr (ref_lt _ (below_digits w.one_lt_radix _) _)

theorem digits_length_le_iff :
    (digits w.radix a).length ≤ k ↔ Nat.size a ≤ k * w.digitLength := by
  rw [Nat.digits_length_le_iff w.one_lt_radix, radix_pow, Nat.size_le]

theorem length_shifted (hz : z ≠ 0) (hs : s < w.digitLength) :
    (digits w.radix (z.natAbs * 2 ^ s)).length
      = digitCount w z - 1 + if leadingLength w z + s ≤ w.digitLength then 1 else 2 := by
  have hpos := leadingLength_pos (w := w) hz
  have hle := leadingLength_le (w := w) z
  have hsize : Nat.size (z.natAbs * 2 ^ s)
      = leadingLength w z + s + (digitCount w z - 1) * w.digitLength := by
    rw [← Nat.shiftLeft_eq, Nat.size_shiftLeft (by omega), size_eq_leadingLength hz,
      Nat.mul_comm w.digitLength]
    omega
  refine eq_of_forall_ge_iff fun k => ?_
  rw [digits_length_le_iff, hsize]
  generalize digitCount w z - 1 = j
  constructor
  · intro h
    have hjk : j < k := by
      by_contra hjk
      have := Nat.mul_le_mul_right w.digitLength (Nat.le_of_not_lt hjk)
      omega
    split
    · omega
    · by_contra hk
      obtain rfl : k = j + 1 := by omega
      rw [Nat.succ_mul] at h
      omega
  · intro h
    have hmul := Nat.mul_le_mul_right w.digitLength h
    rw [Nat.add_mul] at hmul
    split at hmul <;> omega

theorem shiftedLength_eq {delta : Nat} (hpos : 0 < delta) (hle : delta ≤ w.digitLength)
    (h : delta + m < 2 ^ w.objectLength) :
    shiftedLength w delta m
      = m / w.digitLength + if delta + m % w.digitLength ≤ w.digitLength then 1 else 2 := by
  have hd := digitLength_pos (w := w)
  have hmod := Nat.mod_lt m hd
  have hsplit : delta + m = delta + m % w.digitLength + w.digitLength * (m / w.digitLength) := by
    have := Nat.mod_add_div m w.digitLength
    omega
  unfold shiftedLength
  rw [Nat.mod_eq_of_lt h, hsplit]
  dsimp only
  rw [Nat.add_mul_div_left _ _ hd, Nat.add_mul_mod_self_left]
  generalize m % w.digitLength = s at *
  rcases lt_trichotomy (delta + s) w.digitLength with hlt | heq | hgt
  · rw [Nat.div_eq_of_lt hlt, Nat.mod_eq_of_lt hlt, if_pos (by omega), if_pos hlt.le]
    omega
  · rw [heq, Nat.div_self hd, Nat.mod_self, if_neg (by omega), if_pos le_rfl]
    omega
  · have hdiv : (delta + s) / w.digitLength = 1 :=
      Nat.div_eq_of_lt_le (by omega) (by omega)
    have hne : (delta + s) % w.digitLength ≠ 0 := by
      have := Nat.mod_add_div (delta + s) w.digitLength
      rw [hdiv] at this
      omega
    rw [if_pos hne, if_neg (by omega)]
    omega

theorem shiftedLength_le {delta : Nat} (hle : delta ≤ w.digitLength) (hm : m < 2 ^ w.objectLength)
    (h : 2 ^ w.objectLength ≤ delta + m) : shiftedLength w delta m ≤ 1 ∧ 0 < m / w.digitLength := by
  have hd := digitLength_pos (w := w)
  have hulong := radix_lt_ulong (w := w)
  have hradix : 2 * w.digitLength ≤ w.radix := by
    have hlt := Nat.lt_two_pow_self (n := w.digitLength - 1)
    have hpow : w.radix = 2 * 2 ^ (w.digitLength - 1) := by
      rw [Word.radix, ← Nat.pow_succ', Nat.succ_eq_add_one, Nat.sub_add_cancel hd]
    omega
  have hsum : (delta + m) % 2 ^ w.objectLength = delta + m - 2 ^ w.objectLength := by
    rw [Nat.mod_eq_sub_mod h, Nat.mod_eq_of_lt (by omega)]
  refine ⟨?_, Nat.div_pos (by omega) hd⟩
  unfold shiftedLength
  dsimp only
  rw [Nat.div_eq_of_lt (by omega)]
  split <;> omega

/-- The shift counts for which the sum of `bignum_shift_left` fits in a word. -/
def ShiftFits (w : Word) (z : Int) (m : Nat) : Prop := leadingLength w z + m < 2 ^ w.objectLength

instance (z : Int) (m : Nat) : Decidable (ShiftFits w z m) := by
  unfold ShiftFits
  exact inferInstance

theorem bignumShiftLeft_of_ne (hw : w.ByteSized) (hz : z ≠ 0) (hm0 : m ≠ 0)
    (hm : m < 2 ^ w.objectLength) :
    bignumShiftLeft w (ofInt w z) m
      = if ShiftFits w z m then some (ofInt w (z * (2 ^ m : Nat))) else none := by
  have hd := digitLength_pos (w := w)
  have hmod := Nat.mod_lt m hd
  have hpos := leadingLength_pos (w := w) hz
  have hle := leadingLength_le (w := w) z
  have hfirst : ¬ (decide (m = 0) || (ofInt w z).zeroP) = true := by
    rw [zeroP_ofInt, decide_eq_false hm0, decide_eq_false hz]
    decide
  have hdelta : ulongLengthInBits w ((ofInt w z).ref ((ofInt w z).length - 1))
      = leadingLength w z :=
    ulongLengthInBits_eq hw (digit_lt_ulong (ref_lt _ (below_digits w.one_lt_radix _) _))
  have hdigits : (if m % w.digitLength = 0 then (ofInt w z).digits
      else (shiftLeftDigits w (m % w.digitLength) (ofInt w z).digits 0).1
        ++ if (shiftLeftDigits w (m % w.digitLength) (ofInt w z).digits 0).2 ≠ 0
          then [(shiftLeftDigits w (m % w.digitLength) (ofInt w z).digits 0).2] else [])
      = digits w.radix (z.natAbs * 2 ^ (m % w.digitLength)) := by
    split
    · rename_i h
      rw [h, Nat.pow_zero, Nat.mul_one]
      rfl
    · exact shiftLeftDigits_digits hmod.le _
  have hlength := length_shifted (w := w) hz hmod
  unfold bignumShiftLeft
  rw [if_neg hfirst]
  dsimp only
  rw [hdelta, hdigits, hlength]
  change (if _ = digitCount w z - 1 + shiftedLength w (leadingLength w z) m then _ else _) = _
  by_cases hfits : ShiftFits w z m
  · have hlen := shiftedLength_eq hpos hle hfits
    rw [if_pos hfits, if_pos (by omega)]
    have hprod : z.natAbs * 2 ^ (m % w.digitLength) * w.radix ^ (m / w.digitLength)
        = (z * (2 ^ m : Nat)).natAbs := by
      rw [radix_pow, Nat.mul_assoc, ← Nat.pow_add, Nat.mul_comm (m / w.digitLength),
        Nat.mod_add_div, Int.natAbs_mul, Int.natAbs_natCast]
    have hne : 0 < z.natAbs * 2 ^ (m % w.digitLength) :=
      Nat.mul_pos (by omega) (two_pow_pos _)
    rw [← Nat.digits_base_pow_mul w.one_lt_radix hne, Nat.mul_comm, hprod]
    unfold ofInt
    have hsign : (z * (2 ^ m : Nat) < 0) ↔ z < 0 :=
      ⟨fun h => neg_of_mul_neg_left h (Int.natCast_nonneg _), fun h =>
        mul_neg_of_neg_of_pos h (Int.natCast_pos.mpr (two_pow_pos m))⟩
    simp only [hsign]
  · have hwrap := shiftedLength_le hle hm (not_lt.mp hfits)
    rw [if_neg hfits, if_neg (by split <;> omega)]

theorem shiftFits_zero (hm : m < 2 ^ w.objectLength) : ShiftFits w 0 m := by
  unfold ShiftFits leadingLength
  rw [ofInt_zero]
  change Nat.size 0 + m < _
  rw [Nat.size_zero, Nat.zero_add]
  exact hm

theorem shiftFits_no_shift (z : Int) : ShiftFits w z 0 := by
  have hle := leadingLength_le (w := w) z
  have hlt := Nat.lt_two_pow_self (n := w.objectLength)
  have hdef : w.objectLength = w.digitLength + 2 := rfl
  unfold ShiftFits
  omega

/-- **`bignum_shift_left`** returns the shifted number if the sum fits in a word, and nothing
otherwise. -/
theorem bignumShiftLeft_ofInt (hw : w.ByteSized) (z : Int) (hm : m < 2 ^ w.objectLength) :
    bignumShiftLeft w (ofInt w z) m
      = if ShiftFits w z m then some (ofInt w (z * (2 ^ m : Nat))) else none := by
  by_cases hm0 : m = 0
  · rw [hm0, if_pos (shiftFits_no_shift z), Nat.pow_zero, Int.natCast_one, Int.mul_one]
    rfl
  by_cases hz : z = 0
  · rw [hz, if_pos (shiftFits_zero hm), bignumShiftLeft, zeroP_ofInt]
    simp
  exact bignumShiftLeft_of_ne hw hz hm0 hm

theorem and_digit_of_lt {x : Nat} (h : x < w.radix) : x &&& (w.radix - 1) = x := by
  rw [Word.radix, Nat.and_two_pow_sub_one_eq_mod]
  exact Nat.mod_eq_of_lt h

theorem unsignedLongToShiftedBignum_eq {n : Nat} (hn0 : n ≠ 0) (hn : n < w.radix) (hm0 : m ≠ 0) :
    unsignedLongToShiftedBignum w n m sign = bignumShiftLeft w ⟨sign, [n]⟩ m := by
  have hfirst : ¬ (decide (m = 0) || (⟨sign, [n]⟩ : Bignum).zeroP) = true := by
    simp [hm0, zeroP, Bignum.length]
  have hmask : (((n <<< (m % w.digitLength)) % 2 ^ w.objectLength) &&& (w.radix - 1))
      = (n <<< (m % w.digitLength)) &&& (w.radix - 1) := by
    rw [Word.radix, Nat.and_two_pow_sub_one_eq_mod, Nat.and_two_pow_sub_one_eq_mod]
    exact Nat.mod_mod_of_dvd _ (Nat.pow_dvd_pow 2 (by unfold Word.objectLength; omega))
  have hbits : w.bitsToDigits w.objectLength = 1 + 1 := by
    have hle := w.le_half
    have hdef : w.digitLength = 2 * w.half := rfl
    unfold Word.bitsToDigits Word.objectLength
    exact Nat.div_eq_of_lt_le (by omega) (by omega)
  have hrest : ∀ x, x < w.radix → ulongDigits w (1 + 1) x = if x ≠ 0 then [x] else [] := by
    intro x hx
    have hshift : x >>> w.digitLength = 0 := by
      rw [shiftRight_eq_div_pow]
      exact Nat.div_eq_of_lt hx
    rw [ulongDigits, ulongDigits, hshift, if_neg (lt_irrefl 0), and_digit_of_lt hx]
    simp only [Nat.pos_iff_ne_zero]
  have hlt : n >>> (w.digitLength - m % w.digitLength) < w.radix := by
    rw [shiftRight_eq_div_pow]
    exact (Nat.div_le_self _ _).trans_lt hn
  unfold unsignedLongToShiftedBignum bignumShiftLeft
  rw [if_neg hn0, if_neg hfirst]
  dsimp only
  rw [hmask, hbits, hrest _ hlt]
  change _ = if _ = 1 - 1 + shiftedLength w (ulongLengthInBits w n) m then _ else _
  rw [Nat.zero_add]
  by_cases hs : m % w.digitLength = 0
  · have hzero : n >>> w.digitLength = 0 := by
      rw [shiftRight_eq_div_pow]
      exact Nat.div_eq_of_lt hn
    rw [hs, if_pos rfl, Nat.sub_zero, hzero, Nat.shiftLeft_zero, and_digit_of_lt hn,
      if_neg (not_not.mpr rfl)]
  · rw [if_neg hs, shiftLeftDigits, Nat.or_zero]
    rfl

theorem ofInt_one_digit (hz : z ≠ 0) (h : z.natAbs < w.radix) :
    ofInt w z = ⟨decide (z < 0), [z.natAbs]⟩ := by
  unfold ofInt
  rw [Nat.digits_of_lt _ _ (by omega) h]

/-- The condition for the masks of `size` ones from `position` on. -/
def MaskShiftsFit (w : Word) (size position : Nat) : Prop :=
  ShiftFits w (-1) size ∧ ShiftFits w ((2 ^ size : Nat) - 1) position

instance (size position : Nat) : Decidable (MaskShiftsFit w size position) := by
  unfold MaskShiftsFit
  exact inferInstance

theorem bignumNonnegativeOneBits_eq (hw : w.ByteSized) {p : Nat} (hs : s < 2 ^ w.objectLength)
    (hp : p < 2 ^ w.objectLength) :
    bignumNonnegativeOneBits w s p
      = if MaskShiftsFit w s p then
          some (ofInt w (((2 ^ s : Nat) - 1) * (2 ^ p : Nat)))
        else none := by
  unfold bignumNonnegativeOneBits
  rw [makeOne_true, bignumShiftLeft_ofInt hw _ hs]
  by_cases h : ShiftFits w (-1) s
  · have hnot : Int.lnot (-1 * (2 ^ s : Nat)) = (2 ^ s : Nat) - 1 := by
      rw [lnot_eq]
      omega
    rw [if_pos h, bind_eq_bind, bind_some, bignumBitwiseNot_ofInt,
      bind_some, hnot, bignumShiftLeft_ofInt hw _ hp]
    by_cases h' : ShiftFits w ((2 ^ s : Nat) - 1) p
    · have hboth : MaskShiftsFit w s p := ⟨h, h'⟩
      rw [if_pos h', if_pos hboth]
    · have hnot : ¬ MaskShiftsFit w s p := fun hboth => h' hboth.2
      rw [if_neg h', if_neg hnot]
  · have hnot : ¬ MaskShiftsFit w s p := fun hboth => h hboth.1
    rw [if_neg h, if_neg hnot]
    rfl

theorem bignumNegativeZeroBits_eq (hw : w.ByteSized) {p : Nat} (hs : s < 2 ^ w.objectLength)
    (hp : p < 2 ^ w.objectLength) :
    bignumNegativeZeroBits w s p
      = if MaskShiftsFit w s p then
          some (ofInt w (-1 - ((2 ^ s : Nat) - 1) * (2 ^ p : Nat)))
        else none := by
  unfold bignumNegativeZeroBits
  rw [bignumNonnegativeOneBits_eq hw hs hp]
  split
  · rw [bind_eq_bind, bind_some, bignumBitwiseNot_ofInt, lnot_eq]
  · rfl

/-! ## Shifting right -/

theorem shiftRightDigits_spec {b : Nat} (hb : b ≤ w.digitLength) :
    ∀ {ds : List Nat} {extra : Nat}, Below w.radix ds → extra < 2 ^ (w.digitLength - b) →
      Below w.radix (shiftRightDigits w b ds extra)
        ∧ w.value (shiftRightDigits w b ds extra) = extra + 2 ^ (w.digitLength - b) * w.value ds
  | [], extra, _, he => by
      have hlt : extra < w.radix :=
        he.trans_le (Nat.pow_le_pow_right (by decide) (Nat.sub_le _ _))
      rw [shiftRightDigits]
      split
      · exact ⟨by simpa using hlt, by simp⟩
      · rename_i h
        exact ⟨below_nil, by simp [not_not.mp h]⟩
  | d :: ds, extra, hds, he => by
      obtain ⟨hd, hds⟩ := below_cons.mp hds
      have hsplit := radix_split hb
      have hnext : d >>> b < 2 ^ (w.digitLength - b) := by
        rw [shiftRight_eq_div_pow, Nat.div_lt_iff_lt_mul (two_pow_pos b), ← hsplit]
        exact hd
      obtain ⟨hbelow, hvalue⟩ := shiftRightDigits_spec hb hds hnext
      have hdigit : ((d &&& (2 ^ b - 1)) <<< (w.digitLength - b)) ||| extra
          = d % 2 ^ b * 2 ^ (w.digitLength - b) + extra := by
        rw [← Nat.shiftLeft_add_eq_or_of_lt he, Nat.and_two_pow_sub_one_eq_mod, Nat.shiftLeft_eq]
      have hlt : d % 2 ^ b * 2 ^ (w.digitLength - b) + extra < w.radix := by
        have hmod := Nat.mod_lt d (two_pow_pos b)
        rw [hsplit, Nat.add_comm, Nat.mul_comm (2 ^ (w.digitLength - b))]
        exact add_mul_lt he hmod
      have hdm := Nat.mod_add_div d (2 ^ b)
      rw [shiftRightDigits, hdigit, below_cons, value_cons, hvalue, value_cons]
      refine ⟨⟨hlt, hbelow⟩, ?_⟩
      calc d % 2 ^ b * 2 ^ (w.digitLength - b) + extra
            + w.radix * (d >>> b + 2 ^ (w.digitLength - b) * w.value ds)
          = extra + 2 ^ (w.digitLength - b) * ((d % 2 ^ b + 2 ^ b * (d / 2 ^ b))
            + w.radix * w.value ds) := by
            rw [hsplit, shiftRight_eq_div_pow]
            ring
        _ = _ := by rw [hdm]

theorem length_shiftRightDigits (b : Nat) : ∀ (ds : List Nat) (d : Nat),
    (shiftRightDigits w b ds (d >>> b)).length
        + (if (d :: ds).getLast (List.cons_ne_nil _ _) >>> b = 0 then 1 else 0)
      = (d :: ds).length
  | [], d => by
      rw [shiftRightDigits, List.getLast_singleton]
      by_cases h : d >>> b = 0
      · rw [if_pos h, if_neg (not_not.mpr h)]
        rfl
      · rw [if_neg h, if_pos h]
        rfl
  | d' :: ds, d => by
      have ih := length_shiftRightDigits b ds d'
      rw [shiftRightDigits, List.getLast_cons (List.cons_ne_nil _ _)]
      simp only [List.length_cons] at ih ⊢
      omega

theorem drop_digits (h : k < (digits w.radix a).length) :
    (digits w.radix a).drop k = digits w.radix (a / w.radix ^ k) := by
  have hbelow := below_digits w.one_lt_radix a
  have ha : a ≠ 0 := by
    rintro rfl
    simp at h
  have hvalue : Nat.ofDigits w.radix ((digits w.radix a).drop k) = a / w.radix ^ k := by
    have hsplit := ofDigits_take_drop (b := w.radix) (digits w.radix a) k h.le
    have hlt := value_lt (hbelow.take k)
    rw [Nat.ofDigits_digits] at hsplit
    rw [List.length_take_of_le h.le] at hlt
    have hlt : Nat.ofDigits w.radix ((digits w.radix a).take k) < w.radix ^ k := hlt
    conv_rhs => rw [hsplit]
    rw [Nat.add_mul_div_left _ _ (Nat.pow_pos w.radix_pos), Nat.div_eq_of_lt hlt, Nat.zero_add]
  rw [← hvalue]
  refine eq_digits w.one_lt_radix (hbelow.drop k) fun hne => ?_
  rw [List.getLast_drop]
  exact Nat.getLast_digit_ne_zero _ ha

/-- **The digits of a number shifted by less than a digit.** -/
theorem shiftRightDigits_digits {q b d : Nat} {ds : List Nat} (hb : b ≤ w.digitLength)
    (hq : digits w.radix q = d :: ds) :
    shiftRightDigits w b ds (d >>> b) = digits w.radix (q / 2 ^ b) := by
  have hbelow := below_digits w.one_lt_radix q
  rw [hq, below_cons] at hbelow
  have hsplit := radix_split hb
  have hpow := two_pow_pos b
  have hnext : d >>> b < 2 ^ (w.digitLength - b) := by
    rw [shiftRight_eq_div_pow, Nat.div_lt_iff_lt_mul hpow, ← hsplit]
    exact hbelow.1
  obtain ⟨hbelow', hvalue⟩ := shiftRightDigits_spec hb hbelow.2 hnext
  have hqvalue : q = d + w.radix * w.value ds := by
    rw [← value_cons, ← hq, value_digits]
  have hall : w.value (shiftRightDigits w b ds (d >>> b)) = q / 2 ^ b := by
    rw [hvalue, hqvalue, shiftRight_eq_div_pow, hsplit,
      Nat.mul_comm (2 ^ (w.digitLength - b)) (2 ^ b), Nat.mul_assoc, Nat.add_mul_div_left _ _ hpow]
  have hlen := length_shiftRightDigits (w := w) b ds d
  rw [← hall]
  refine eq_digits_of_pow_le w.one_lt_radix hbelow' fun k hk => ?_
  change w.radix ^ k ≤ w.value _
  rw [hall, Nat.le_div_iff_mul_le hpow]
  have hdigits : (digits w.radix q).length = (d :: ds).length := by rw [hq]
  have hle : 2 ^ b ≤ w.radix := Nat.pow_le_pow_right (by decide) hb
  split at hlen
  · -- the leading digit is shifted out
    have hlong : (digits w.radix q).length = (k + 1) + 1 := by omega
    have hq' := pow_length_le w.one_lt_radix hlong
    exact (Nat.mul_le_mul_left _ hle).trans hq'
  · rename_i htop
    have hlong : ds.length = k := by
      rw [List.length_cons] at hlen
      omega
    have hlast : 2 ^ b ≤ (d :: ds).getLast (List.cons_ne_nil _ _) := by
      by_contra hlt
      rw [shiftRight_eq_div_pow] at htop
      exact htop (Nat.div_eq_of_lt (not_le.mp hlt))
    have hinit : (d :: ds).dropLast.length = k := by
      rw [List.length_dropLast]
      omega
    have hvalue' : q = w.value (d :: ds).dropLast
        + w.radix ^ k * (d :: ds).getLast (List.cons_ne_nil _ _) := by
      conv_lhs => rw [hqvalue, ← value_cons, ← List.dropLast_append_getLast (List.cons_ne_nil d ds)]
      rw [value_append, hinit, value_cons, value_nil, Nat.mul_zero, Nat.add_zero]
    rw [hvalue']
    exact (Nat.mul_le_mul_left _ hlast).trans (Nat.le_add_left _ _)

theorem ref_eq_getLast (h : digits w.radix a ≠ []) :
    (⟨sign, digits w.radix a⟩ : Bignum).ref
        ((⟨sign, digits w.radix a⟩ : Bignum).length - 1)
      = (digits w.radix a).getLast h := by
  have hpos := List.length_pos_iff.mpr h
  unfold Bignum.ref Bignum.length
  rw [List.getD_eq_getElem _ _ (Nat.sub_lt hpos Nat.one_pos), List.getLast_eq_getElem]

/-- **`bignum_shift_right_unsigned`** by a whole number of digits. -/
theorem bignumShiftRightUnsigned_digits (hk : k ≤ (digits w.radix a).length) :
    bignumShiftRightUnsigned w ⟨sign, digits w.radix a⟩ k 0
      = some ⟨false, digits w.radix (a / w.radix ^ k)⟩ := by
  have hdrop : (digits w.radix a).drop k = digits w.radix (a / w.radix ^ k) := by
    rcases Nat.lt_or_eq_of_le hk with hlt | rfl
    · exact drop_digits hlt
    · rw [List.drop_length, Nat.div_eq_of_lt ((Nat.digits_length_le_iff w.one_lt_radix a).mp le_rfl),
        Nat.digits_zero]
  have htop : ¬ (0 < (⟨sign, digits w.radix a⟩ : Bignum).length
      ∧ (⟨sign, digits w.radix a⟩ : Bignum).ref
        ((⟨sign, digits w.radix a⟩ : Bignum).length - 1) >>> 0 = 0) := by
    rintro ⟨hpos, hzero⟩
    have hne : digits w.radix a ≠ [] := List.length_pos_iff.mp hpos
    rw [ref_eq_getLast hne] at hzero
    exact Nat.getLast_digit_ne_zero _ (Nat.digits_ne_nil_iff_ne_zero.mp hne) hzero
  have hlen : (((digits w.radix a).drop k).length : Int)
      = (⟨sign, digits w.radix a⟩ : Bignum).length - k - (0 : Nat) := by
    rw [List.length_drop]
    change ((_ - k : Nat) : Int) = ((digits w.radix a).length : Int) - k - (0 : Nat)
    omega
  unfold bignumShiftRightUnsigned
  rw [if_neg htop, if_pos rfl, bind_eq_bind, bind_some, guard, if_pos hlen, hdrop]
  rfl

/-- **`bignum_shift_right_unsigned`** by more than that: there must be a digit to start with. -/
theorem bignumShiftRightUnsigned_bits {b : Nat} (hb0 : b ≠ 0) (hb : b < w.digitLength) :
    bignumShiftRightUnsigned w ⟨sign, digits w.radix a⟩ k b
      = if k < (digits w.radix a).length then
          some ⟨false, digits w.radix (a / w.radix ^ k / 2 ^ b)⟩
        else none := by
  unfold bignumShiftRightUnsigned
  by_cases hk : k < (digits w.radix a).length
  · have hne : digits w.radix a ≠ [] := List.ne_nil_of_length_pos (by omega)
    have hdrop := drop_digits hk
    have hlast := List.getLast_drop (List.ne_nil_of_length_pos (by
      rw [List.length_drop]
      omega : 0 < ((digits w.radix a).drop k).length))
    have hlen := List.length_drop (l := digits w.radix a) (i := k)
    cases hds : (digits w.radix a).drop k with
    | nil =>
        rw [hds] at hlen
        simp only [List.length_nil] at hlen
        omega
    | cons d ds =>
        have hout := shiftRightDigits_digits hb.le (hdrop.symm.trans hds)
        have hcount := length_shiftRightDigits (w := w) b ds d
        have hlead : (d :: ds).getLast (List.cons_ne_nil _ _)
            = (⟨sign, digits w.radix a⟩ : Bignum).ref
              ((⟨sign, digits w.radix a⟩ : Bignum).length - 1) := by
          rw [ref_eq_getLast hne, ← hlast]
          exact List.getLast_congr _ _ hds.symm
        have hguard : ((shiftRightDigits w b ds (d >>> b)).length : Int)
            = (⟨sign, digits w.radix a⟩ : Bignum).length - k
              - ((if 0 < (⟨sign, digits w.radix a⟩ : Bignum).length
                  ∧ (⟨sign, digits w.radix a⟩ : Bignum).ref
                    ((⟨sign, digits w.radix a⟩ : Bignum).length - 1) >>> b = 0
                then 1 else 0 : Nat) : Int) := by
          rw [hds] at hlen
          rw [hlead] at hcount
          have hpos : 0 < (⟨sign, digits w.radix a⟩ : Bignum).length := by
            change 0 < (digits w.radix a).length
            omega
          simp only [hpos, true_and]
          change _ = ((digits w.radix a).length : Int) - k - _
          split at hcount
          · rename_i h
            rw [if_pos h]
            omega
          · rename_i h
            rw [if_neg h]
            omega
        rw [if_neg hb0, if_pos hk]
        rw [bind_eq_bind, bind_some, guard, if_pos hguard, hout]
        rfl
  · have hds : (digits w.radix a).drop k = [] := List.drop_eq_nil_of_le (not_lt.mp hk)
    rw [if_neg hb0, if_neg hk]
    rw [hds]
    rfl

/-- The negative numbers whose complement has no digit left for the bits of the shift. -/
def ShiftsOutside (w : Word) (z : Int) (m : Nat) : Prop :=
  m % w.digitLength ≠ 0 ∧ z = -((w.radix ^ (m / w.digitLength) : Nat) : Int)

instance (z : Int) (m : Nat) : Decidable (ShiftsOutside w z m) := by
  unfold ShiftsOutside
  exact inferInstance

theorem two_pow_shift (m : Nat) :
    2 ^ m = w.radix ^ (m / w.digitLength) * 2 ^ (m % w.digitLength) := by
  rw [radix_pow, ← Nat.pow_add, Nat.mul_comm, Nat.div_add_mod]

theorem bignumShiftRightUnsigned_eq (hk : m / w.digitLength ≤ (digits w.radix a).length) :
    bignumShiftRightUnsigned w ⟨sign, digits w.radix a⟩ (m / w.digitLength) (m % w.digitLength)
      = if m % w.digitLength ≠ 0 ∧ (digits w.radix a).length ≤ m / w.digitLength then none
        else some ⟨false, digits w.radix (a / 2 ^ m)⟩ := by
  have hpow := two_pow_shift (w := w) m
  by_cases hb : m % w.digitLength = 0
  · rw [hb, Nat.pow_zero, Nat.mul_one] at hpow
    rw [hb, bignumShiftRightUnsigned_digits hk, if_neg (by omega), hpow]
  · rw [bignumShiftRightUnsigned_bits hb (Nat.mod_lt _ digitLength_pos)]
    by_cases hlt : m / w.digitLength < (digits w.radix a).length
    · rw [if_pos hlt, if_neg (by omega), Nat.div_div_eq_div_mul, ← hpow]
    · rw [if_neg hlt, if_pos ⟨hb, not_lt.mp hlt⟩]

theorem negSucc_ediv_two_pow (a m : Nat) :
    Int.negSucc a / (2 ^ m : Nat) = Int.lnot ((a / 2 ^ m : Nat) : Int) := by
  have hneg := Int.negSucc_ediv a (show (0 : Int) < (2 ^ m : Nat) by
    have := two_pow_pos m
    omega)
  change _ = -((a : Int) / (2 ^ m : Nat) + 1) at hneg
  rw [lnot_eq]
  omega

theorem ofInt_natCast (a : Nat) : (⟨false, digits w.radix a⟩ : Bignum) = ofInt w a := by
  unfold ofInt
  rw [decide_eq_false (by omega), Int.natAbs_natCast]

/-- **`bignum_shift_right`** divides and rounds down, unless it looks for a digit outside. -/
theorem bignumShiftRight_ofInt (z : Int) (m : Nat) :
    bignumShiftRight w (ofInt w z) m
      = if ShiftsOutside w z m then none else some (ofInt w (z / (2 ^ m : Nat))) := by
  have hpow := two_pow_shift (w := w) m
  have hpos2 := two_pow_pos (m % w.digitLength)
  have hposr : 0 < w.radix ^ (m / w.digitLength) := Nat.pow_pos w.radix_pos
  have hle : w.radix ^ (m / w.digitLength) ≤ 2 ^ m := by
    rw [hpow]
    exact Nat.le_mul_of_pos_right _ hpos2
  unfold bignumShiftRight
  change (if m / w.digitLength ≥ digitCount w z then
      some (if decide (z < 0) = true then _ else _)
    else if decide (z < 0) = true then _ else _) = _
  by_cases hlen : m / w.digitLength ≥ digitCount w z
  · have hlt := natAbs_lt_radix_pow (w := w).mpr hlen
    have hout : ¬ ShiftsOutside w z m := by
      rintro ⟨-, hz⟩
      rw [hz, Int.natAbs_neg] at hlt
      exact lt_irrefl _ hlt
    rw [if_pos hlen, if_neg hout]
    by_cases hz : z < 0
    · have hdiv : z / (2 ^ m : Nat) = -1 := by
        rw [Int.ediv_eq_iff_of_pos (by omega)]
        omega
      rw [decide_eq_true hz, if_pos rfl, hdiv, makeOne_true]
    · rw [decide_eq_false hz, if_neg Bool.false_ne_true,
        Int.ediv_eq_zero_of_lt (by omega) (by omega), ofInt_zero]
  · have hge := radix_pow_le_natAbs (w := w) (not_le.mp hlen)
    rw [if_neg hlen]
    by_cases hz : z < 0
    · -- the complement may be one digit shorter
      obtain ⟨a, rfl⟩ : ∃ a : Nat, z = Int.negSucc a := Int.eq_negSucc_of_lt_zero hz
      have hnot : Int.lnot (Int.negSucc a) = (a : Int) := rfl
      have hk : m / w.digitLength ≤ (digits w.radix a).length := by
        rcases Nat.eq_zero_or_pos (m / w.digitLength) with h0 | h0
        · omega
        · have hlt : w.radix ^ (m / w.digitLength - 1) < w.radix ^ (m / w.digitLength) :=
            Nat.pow_lt_pow_right w.one_lt_radix (by omega)
          have := (Nat.lt_digits_length_iff w.one_lt_radix a).mpr
            (show w.radix ^ (m / w.digitLength - 1) ≤ a by omega)
          omega
      have hiff : (digits w.radix a).length ≤ m / w.digitLength
          ↔ Int.negSucc a = -((w.radix ^ (m / w.digitLength) : Nat) : Int) := by
        rw [Nat.digits_length_le_iff w.one_lt_radix]
        omega
      rw [decide_eq_true hz, if_pos rfl, bignumBitwiseNot_ofInt, bind_eq_bind,
        bind_some, hnot, ← ofInt_natCast, bignumShiftRightUnsigned_eq hk]
      by_cases hout : ShiftsOutside w (Int.negSucc a) m
      · have hcond : m % w.digitLength ≠ 0 ∧ (digits w.radix a).length ≤ m / w.digitLength :=
          ⟨hout.1, hiff.mpr hout.2⟩
        rw [if_pos hcond, if_pos hout]
        rfl
      · have hcond : ¬ (m % w.digitLength ≠ 0
            ∧ (digits w.radix a).length ≤ m / w.digitLength) :=
          fun h => hout ⟨h.1, hiff.mp h.2⟩
        rw [if_neg hcond, if_neg hout, bind_some, ofInt_natCast, bignumBitwiseNot_ofInt,
          negSucc_ediv_two_pow]
    · obtain ⟨a, rfl⟩ := Int.eq_ofNat_of_zero_le (not_lt.mp hz)
      have hlong : m / w.digitLength < (digits w.radix a).length := not_le.mp hlen
      have hout : ¬ ShiftsOutside w (a : Int) m := by
        rintro ⟨-, h⟩
        omega
      rw [decide_eq_false hz, if_neg Bool.false_ne_true, ← ofInt_natCast,
        bignumShiftRightUnsigned_eq hlong.le, if_neg (by omega), if_neg hout]
      rfl

end MitScheme
