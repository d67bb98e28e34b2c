import MitScheme.Microcode.BignumLongDivision
import MitScheme.Microcode.Integer

/-!
# When integer arithmetic is exact

The canonical object of an integer is a fixnum when the integer is in the fixnum
range and the bignum of `Bignum.ofInt` otherwise. Every operation computes the
right bignum, so what remains is the way back: `bignum_to_integer` asks
`bignum_fits_in_word_p`, which compares the number of digits as an `unsigned int`.
A bignum of `2 ^ 32` digits therefore passes for one of no digits. The theorems
below are equivalences for that reason: an operation returns the canonical object
of the exact result if and only if the length of that result survives the cast.
-/

namespace MitScheme

open DigitList Bignum ExactInteger
open Nat (mod_eq_of_lt mod_lt two_pow_pos zero_mul)
open Word (datumLength digitLength fixnumLength fixnumSignBit objectLength signMask)

variable (w : Word)

/-- The fixnum range. -/
def InFixnumRange (z : Int) : Prop := -(w.fixnumSignBit : Int) ≤ z ∧ z < w.fixnumSignBit

instance (z : Int) : Decidable (InFixnumRange w z) := by
  unfold InFixnumRange
  exact inferInstance

/-- The integer a bignum stands for. -/
def Bignum.toInt (x : Bignum) : Int :=
  if x.negative then -(w.value x.digits : Int) else w.value x.digits

namespace ExactInteger

/-- The integer an object stands for. -/
def value : ExactInteger → Int
  | fixnum datum => fixnumToLong w datum
  | bignum x => x.toInt w
  | sharpF => 0

/-- **Canonical representation.** A fixnum is a datum; a bignum has digits below the radix
and a non-zero leading one, and is used only outside the fixnum range. -/
def Canonical : ExactInteger → Prop
  | fixnum datum => datum < 2 ^ w.datumLength
  | bignum x => (∀ d ∈ x.digits, d < w.radix) ∧ (∃ h : x.digits ≠ [], x.digits.getLast h ≠ 0)
      ∧ ¬ InFixnumRange w (x.toInt w)
  | sharpF => False

/-- The canonical object of an integer. -/
def ofInt (z : Int) : ExactInteger :=
  if InFixnumRange w z then fixnum (z % (2 ^ w.datumLength : Nat)).toNat
  else bignum (Bignum.ofInt w z)

end ExactInteger

variable {w}

theorem datumLength_eq : w.datumLength = w.fixnumLength + 1 := by
  have := w.le_half
  unfold fixnumLength datumLength objectLength digitLength
  omega

theorem objectLength_eq : w.objectLength = w.fixnumLength + 7 := by
  have := w.le_half
  unfold fixnumLength datumLength objectLength digitLength
  omega

theorem fixnumLength_pos : 0 < w.fixnumLength := by
  have := w.le_half
  unfold fixnumLength datumLength objectLength digitLength
  omega

theorem two_pow_datumLength : 2 ^ w.datumLength = 2 * w.fixnumSignBit := by
  rw [datumLength_eq, fixnumSignBit]
  omega

theorem two_pow_objectLength : 2 ^ w.objectLength = 128 * w.fixnumSignBit := by
  rw [objectLength_eq, Nat.pow_add, fixnumSignBit]
  omega

theorem longLimit_eq_fixnum : w.longLimit = 64 * w.fixnumSignBit := by
  unfold Word.longLimit fixnumSignBit
  rw [objectLength_eq, show w.fixnumLength + 7 - 1 = w.fixnumLength + 6 by omega, Nat.pow_add]
  omega

theorem fixnumSignBit_pos : 0 < w.fixnumSignBit := two_pow_pos _

theorem fixnumSignBit_lt_radix : w.fixnumSignBit < w.radix := w.two_pow_fixnumLength_lt

/-! ## Fixnums -/

variable {d : Nat} {z n : Int}

theorem xor_two_pow_of_lt {k : Nat} (h : d < 2 ^ k) : d ^^^ 2 ^ k = d + 2 ^ k := by
  have hor : d ^^^ 2 ^ k = d ||| 2 ^ k := by
    refine Nat.eq_of_testBit_eq ?_
    intro i
    by_cases hi : k = i
    · subst hi
      simp [Nat.testBit_lt_two_pow h]
    · simp [hi]
  rw [hor, Nat.lor_comm]
  have := Nat.two_pow_add_eq_or_of_lt h 1
  rw [Nat.mul_one] at this
  omega

theorem fixnumToLong_of_lt (h : d < w.fixnumSignBit) : fixnumToLong w d = d := by
  unfold fixnumToLong
  rw [fixnumSignBit, xor_two_pow_of_lt h]
  omega

theorem fixnumToLong_of_ge (h : w.fixnumSignBit ≤ d) (hd : d < 2 ^ w.datumLength) :
    fixnumToLong w d = (d : Int) - (2 ^ w.datumLength : Nat) := by
  have hD := two_pow_datumLength (w := w)
  obtain ⟨e, rfl⟩ : ∃ e, d = e + w.fixnumSignBit := ⟨d - w.fixnumSignBit, by omega⟩
  have he : e < 2 ^ w.fixnumLength := by
    unfold fixnumSignBit at *
    omega
  have hx := xor_two_pow_of_lt he
  unfold fixnumToLong
  rw [fixnumSignBit, ← hx, Nat.xor_assoc, Nat.xor_self, Nat.xor_zero, hD,
    fixnumSignBit]
  omega

theorem emod_datum (h : InFixnumRange w z) :
    (z % (2 ^ w.datumLength : Nat)).toNat
      = if 0 ≤ z then z.toNat else (z + (2 ^ w.datumLength : Nat)).toNat := by
  have hD := two_pow_datumLength (w := w)
  obtain ⟨h1, h2⟩ := h
  split
  · rw [Int.emod_eq_of_lt (by omega) (by omega)]
  · rw [← Int.add_emod_right, Int.emod_eq_of_lt (by omega) (by omega)]

theorem fixnumToLong_emod (h : InFixnumRange w z) :
    fixnumToLong w (z % (2 ^ w.datumLength : Nat)).toNat = z := by
  have hD := two_pow_datumLength (w := w)
  rw [emod_datum h]
  obtain ⟨h1, h2⟩ := h
  split
  · rw [fixnumToLong_of_lt (by omega)]
    omega
  · rw [fixnumToLong_of_ge (by omega) (by omega)]
    omega

theorem fixnumToLong_inRange (h : d < 2 ^ w.datumLength) : InFixnumRange w (fixnumToLong w d) := by
  have hD := two_pow_datumLength (w := w)
  unfold InFixnumRange
  by_cases hlt : d < w.fixnumSignBit
  · rw [fixnumToLong_of_lt hlt]
    omega
  · rw [fixnumToLong_of_ge (by omega) h]
    omega

theorem toUlong_eq (h1 : -(w.longLimit : Int) ≤ n) (h2 : n < w.longLimit) :
    w.toUlong n = if 0 ≤ n then n.toNat else (n + (2 ^ w.objectLength : Nat)).toNat := by
  have hW := two_pow_objectLength (w := w)
  have hL := longLimit_eq_fixnum (w := w)
  unfold Word.toUlong
  split
  · rw [Int.emod_eq_of_lt (by omega) (by omega)]
  · rw [← Int.add_emod_right, Int.emod_eq_of_lt (by omega) (by omega)]

theorem and_shiftLeft_eq (u m k : Nat) : u &&& (m <<< k) = ((u >>> k) &&& m) <<< k := by
  refine Nat.eq_of_testBit_eq ?_
  intro i
  by_cases hi : k ≤ i
  · simp [Nat.testBit_shiftLeft, Nat.testBit_shiftRight, hi, Nat.add_sub_cancel' hi]
  · simp [Nat.testBit_shiftLeft, hi]

theorem and_signMask {u : Nat} (h : u < 2 ^ w.objectLength) :
    u &&& w.signMask = u / w.fixnumSignBit * w.fixnumSignBit := by
  unfold signMask
  rw [and_shiftLeft_eq, Nat.and_two_pow_sub_one_eq_mod, Nat.shiftLeft_eq,
    Nat.shiftRight_eq_div_pow, mod_eq_of_lt]
  · rfl
  · rw [Nat.div_lt_iff_lt_mul (two_pow_pos _), ← Nat.pow_add, Nat.add_comm,
      ← objectLength_eq]
    exact h

theorem longToFixnumP_iff (h1 : -(w.longLimit : Int) ≤ n) (h2 : n < w.longLimit) :
    longToFixnumP w n = true ↔ InFixnumRange w n := by
  have hW := two_pow_objectLength (w := w)
  have hL := longLimit_eq_fixnum (w := w)
  have hP := fixnumSignBit_pos (w := w)
  have hu := toUlong_eq h1 h2
  have hult : w.toUlong n < 2 ^ w.objectLength := by
    rw [hu]
    split <;> omega
  have hmask : w.signMask = 127 * w.fixnumSignBit := by
    unfold signMask fixnumSignBit
    rw [Nat.shiftLeft_eq]
    norm_num
  unfold longToFixnumP InFixnumRange
  rw [and_signMask hult, hmask, Bool.or_eq_true, beq_iff_eq, beq_iff_eq]
  have hdm := Nat.div_add_mod' (w.toUlong n) w.fixnumSignBit
  have hml := mod_lt (w.toUlong n) hP
  have hzero : w.toUlong n / w.fixnumSignBit * w.fixnumSignBit = 0
      ↔ w.toUlong n < w.fixnumSignBit := by
    constructor
    · omega
    · intro h; rw [Nat.div_eq_of_lt h, zero_mul]
  have hones : w.toUlong n / w.fixnumSignBit * w.fixnumSignBit = 127 * w.fixnumSignBit
      ↔ 127 * w.fixnumSignBit ≤ w.toUlong n := by
    constructor
    · omega
    · intro h
      have hq : w.toUlong n / w.fixnumSignBit = 127 := by
        refine Nat.div_eq_of_lt_le h ?_
        omega
      rw [hq]
  rw [hzero, hones, hu]
  split <;> omega

theorem longToFixnum_eq (h : InFixnumRange w n) : longToFixnum w n = ExactInteger.ofInt w n := by
  unfold longToFixnum ExactInteger.ofInt
  rw [if_pos h]
  congr 1
  rw [Word.datumMask, Nat.and_two_pow_sub_one_eq_mod, emod_datum h]
  have hD := two_pow_datumLength (w := w)
  have hW := two_pow_objectLength (w := w)
  have hL := longLimit_eq_fixnum (w := w)
  obtain ⟨h1, h2⟩ := h
  rw [toUlong_eq (by omega) (by omega)]
  split
  · exact mod_eq_of_lt (by omega)
  · have : (n + (2 ^ w.objectLength : Nat)).toNat
        = (n + (2 ^ w.datumLength : Nat)).toNat + 2 ^ w.datumLength * 63 := by omega
    rw [this, Nat.add_mul_mod_self_left]
    exact mod_eq_of_lt (by omega)

/-! ## Canonical objects -/

theorem toInt_ofInt (z : Int) : (Bignum.ofInt w z).toInt w = z := by
  unfold Bignum.toInt Bignum.ofInt
  by_cases h : z < 0
  · simp only [h, decide_true, ↓reduceIte, value_digits]
    omega
  · simp only [h, decide_false, Bool.false_eq_true, ↓reduceIte, value_digits]
    omega

/-- **The form every function of `bignum.c` returns**: digits, with a non-zero leading one, and
no sign on zero. -/
structure Bignum.WellFormed (w : Word) (x : Bignum) : Prop where
  below : Below w.radix x.digits
  leading : ∀ h : x.digits ≠ [], x.digits.getLast h ≠ 0
  zero : x.digits = [] → x.negative = false

theorem wellFormed_ofInt (z : Int) : (Bignum.ofInt w z).WellFormed w := by
  refine ⟨below_digits w.one_lt_radix _, fun hne => ?_, fun hnil => ?_⟩
  · exact Nat.getLast_digit_ne_zero _ (Nat.digits_ne_nil_iff_ne_zero.mp hne)
  · have hz : z.natAbs = 0 := Nat.digits_eq_nil_iff_eq_zero.mp hnil
    exact decide_eq_false (by omega)

theorem Bignum.WellFormed.eq_ofInt {x : Bignum} (h : x.WellFormed w) :
    x = Bignum.ofInt w (x.toInt w) := by
  obtain ⟨negative, digits⟩ := x
  have hdigits : digits = Nat.digits w.radix (w.value digits) :=
    eq_digits w.one_lt_radix h.below h.leading
  unfold Bignum.ofInt Bignum.toInt
  cases negative with
  | false =>
      simp only [Bool.false_eq_true, ↓reduceIte, Int.natAbs_natCast]
      rw [← hdigits, decide_eq_false (by omega)]
  | true =>
      have hpos : 0 < w.value digits := by
        by_contra h0
        rw [show w.value digits = 0 by omega, Nat.digits_zero] at hdigits
        exact Bool.false_ne_true (h.zero hdigits).symm
      simp only [↓reduceIte, Int.natAbs_neg, Int.natAbs_natCast]
      rw [← hdigits, decide_eq_true (by omega)]

theorem value_ofInt (z : Int) : (ExactInteger.ofInt w z).value w = z := by
  unfold ExactInteger.ofInt
  split
  · rename_i h
    exact fixnumToLong_emod h
  · exact toInt_ofInt z

theorem canonical_ofInt (z : Int) : (ExactInteger.ofInt w z).Canonical w := by
  have hD := two_pow_datumLength (w := w)
  unfold ExactInteger.ofInt
  split
  · rename_i h
    change (z % (2 ^ w.datumLength : Nat)).toNat < 2 ^ w.datumLength
    rw [emod_datum h]
    obtain ⟨h1, h2⟩ := h
    split <;> omega
  · rename_i h
    have hz : z.natAbs ≠ 0 := by
      intro h0
      have := fixnumSignBit_pos (w := w)
      exact h ⟨by omega, by omega⟩
    refine ⟨below_digits w.one_lt_radix _, ⟨digits_ne_nil (by omega), ?_⟩, ?_⟩
    · exact Nat.getLast_digit_ne_zero _ hz
    · rw [toInt_ofInt]
      exact h

/-- **An integer has exactly one canonical object.** -/
theorem canonical_iff {r : ExactInteger} :
    (r.Canonical w ∧ r.value w = z) ↔ r = ExactInteger.ofInt w z := by
  constructor
  · rintro ⟨hc, rfl⟩
    cases r with
    | fixnum d =>
        have hd : d < 2 ^ w.datumLength := hc
        have hr := fixnumToLong_inRange hd
        change fixnum d = ExactInteger.ofInt w (fixnumToLong w d)
        rw [ExactInteger.ofInt, if_pos hr, emod_datum hr]
        congr 1
        by_cases hlt : d < w.fixnumSignBit
        · rw [fixnumToLong_of_lt hlt, if_pos (by omega)]
          omega
        · rw [fixnumToLong_of_ge (by omega) hd, if_neg (by omega)]
          omega
    | bignum x =>
        obtain ⟨hb, ⟨hne, hlast⟩, hr⟩ := hc
        change bignum x = ExactInteger.ofInt w (x.toInt w)
        rw [ExactInteger.ofInt, if_neg hr]
        have hx : x.WellFormed w := ⟨hb, fun _ => hlast, fun hnil => absurd hnil hne⟩
        exact congrArg bignum hx.eq_ofInt
    | sharpF => exact hc.elim
  · rintro rfl
    exact ⟨canonical_ofInt z, value_ofInt z⟩

/-! ## Between bignums and fixnums -/

theorem longDigits_eq : ∀ {fuel n : Nat}, 0 < n → n < w.radix ^ fuel →
    longDigits w fuel n = Nat.digits w.radix n
  | 0, n, h0, h => by simp at h; omega
  | fuel + 1, n, h0, h => by
      have hshift : n >>> w.digitLength = n / w.radix := Nat.shiftRight_eq_div_pow _ _
      rw [longDigits, hshift]
      rw [show n &&& (w.radix - 1) = n % w.radix from Nat.and_two_pow_sub_one_eq_mod _ _]
      rw [Nat.digits_of_two_le_of_pos w.one_lt_radix h0]
      congr 1
      split
      · rename_i hne
        refine longDigits_eq (Nat.pos_of_ne_zero hne) ?_
        rw [Nat.div_lt_iff_lt_mul w.radix_pos]
        exact h
      · rename_i hz
        rw [not_not.mp hz, Nat.digits_zero]

theorem longToBignum_eq (h1 : -(w.longLimit : Int) < n) (h2 : n < w.longLimit) :
    longToBignum w n = Bignum.ofInt w n := by
  have hone : Nat.digits w.radix 1 = [1] :=
    Nat.digits_of_lt w.radix 1 (by decide) w.one_lt_radix
  unfold longToBignum
  split
  · rename_i h
    rw [h, ofInt_zero]
  split
  · rename_i h
    simp [h, makeOne, Bignum.ofInt, hone]
  split
  · rename_i h
    simp [h, makeOne, Bignum.ofInt, hone]
  congr 1
  -- two digits hold every `long`
  have htwo : w.bitsToDigits w.objectLength = 2 := by
    have := w.le_half
    unfold Word.bitsToDigits objectLength digitLength
    refine Nat.div_eq_of_lt_le ?_ ?_ <;> omega
  rw [htwo]
  refine longDigits_eq (by omega) ?_
  rw [Nat.pow_two]
  have := w.longLimit_eq
  have hsq : 2 * w.radix ≤ w.radix * w.radix :=
    Nat.mul_le_mul_right _ (le_trans (by decide) w.radix_ge)
  omega

theorem inRange_long (h : InFixnumRange w z) : -(w.longLimit : Int) < z ∧ z < w.longLimit := by
  have hL := longLimit_eq_fixnum (w := w)
  obtain ⟨h1, h2⟩ := h
  constructor <;> omega

theorem integerToBignum_ofInt (z : Int) :
    integerToBignum w (ExactInteger.ofInt w z) = some (Bignum.ofInt w z) := by
  unfold ExactInteger.ofInt
  split
  · rename_i h
    have hl := inRange_long h
    rw [integerToBignum, fixnumToLong_emod h, longToBignum_eq hl.1 hl.2]
  · rfl

theorem longToInteger_eq (h1 : -(w.longLimit : Int) < n) (h2 : n < w.longLimit) :
    longToInteger w n = ExactInteger.ofInt w n := by
  unfold longToInteger
  by_cases hr : InFixnumRange w n
  · rw [if_pos ((longToFixnumP_iff h1.le h2).mpr hr), longToFixnum_eq hr]
  · rw [if_neg (fun h => hr ((longToFixnumP_iff h1.le h2).mp h)), longToBignum_eq h1 h2,
      ExactInteger.ofInt, if_neg hr]

variable (w) in
/-- The number of digits of an integer. -/
def digitCount (z : Int) : Nat := (Nat.digits w.radix z.natAbs).length

variable (w) in
/-- **When the cast to `unsigned int` does no harm.** The number of digits is below
`2 ^ 32`, or at least it does not turn into zero or one. -/
def LengthSurvives (z : Int) : Prop :=
  digitCount w z < uintLimit ∨ 2 ≤ digitCount w z % uintLimit

variable (w) in
/-- An operation returns the canonical object of an integer. -/
def Returns (r : Option ExactInteger) (z : Int) : Prop :=
  ∃ object, r = some object ∧ object.Canonical w ∧ object.value w = z

theorem returns_iff {r : Option ExactInteger} :
    Returns w r z ↔ r = some (ExactInteger.ofInt w z) := by
  constructor
  · rintro ⟨object, rfl, h⟩
    rw [canonical_iff.mp h]
  · intro h
    exact ⟨_, h, canonical_ofInt z, value_ofInt z⟩

theorem digitCount_le_one_of_inRange (h : InFixnumRange w z) : digitCount w z ≤ 1 := by
  refine (Nat.digits_length_le_iff w.one_lt_radix _).mpr ?_
  have := fixnumSignBit_lt_radix (w := w)
  obtain ⟨h1, h2⟩ := h
  rw [Nat.pow_one]
  omega

theorem lengthSurvives_of_inRange (h : InFixnumRange w z) : LengthSurvives w z := by
  have := digitCount_le_one_of_inRange h
  exact Or.inl (by unfold uintLimit; omega)

theorem not_inRange_of_two_le (h : 2 ≤ digitCount w z) : ¬ InFixnumRange w z :=
  fun hr => absurd (digitCount_le_one_of_inRange hr) (by omega)

theorem bitsToDigits_fixnumLength : w.bitsToDigits w.fixnumLength = 1 := by
  have h1 := fixnumLength_pos (w := w)
  have h2 := w.fixnumLength_lt
  refine Nat.div_eq_of_lt_le ?_ ?_ <;> omega

theorem bignumToLong_of_inRange (h : InFixnumRange w z) :
    bignumToLong w (Bignum.ofInt w z) = some z := by
  have hL := longLimit_eq_fixnum (w := w)
  have hW := two_pow_objectLength (w := w)
  have hR := fixnumSignBit_lt_radix (w := w)
  obtain ⟨h1, h2⟩ := h
  unfold bignumToLong
  simp only [zeroP_ofInt, decide_eq_true_eq]
  split
  · rename_i h0
    rw [h0]
  · have hds : (Bignum.ofInt w z).digits = [z.natAbs] :=
      Nat.digits_of_lt w.radix z.natAbs (by omega) (by omega)
    have hacc : bignumToUlong w [z.natAbs] = z.natAbs := by
      simp only [bignumToUlong, Nat.zero_shiftLeft, Nat.zero_add]
      exact mod_eq_of_lt (by omega)
    have hlong : w.toLong z.natAbs = z.natAbs := if_pos (by omega)
    rw [hds, hacc, hlong]
    by_cases hz : z < 0
    · rw [if_pos (by simp [Bignum.ofInt, hz]), w.long_eq (by omega)]
      congr 1
      omega
    · rw [if_neg (by simp [Bignum.ofInt, hz])]
      congr 1
      omega

theorem bignumFitsInWordP_fixnum (x : Bignum) :
    bignumFitsInWordP w x (w.fixnumLength + 1) true
      = if x.length % uintLimit < 1 then some true
        else if x.length % uintLimit > 1 then some false
        else if (x.length - 1) * w.digitLength ≤ w.fixnumLength then
          (w.nat (2 ^ (w.fixnumLength - (x.length - 1) * w.digitLength))).bind fun max =>
            some (decide (x.ref (x.length - 1) < max)
              || (decide (x.ref (x.length - 1) = max) && x.negative))
        else none := by
  have hF := fixnumLength_pos (w := w)
  unfold bignumFitsInWordP
  simp only [Bool.not_true, Bool.false_and, Bool.false_eq_true, ↓reduceIte,
    Nat.add_sub_cancel, hF, guard, Option.bind_eq_bind, Option.pure_def, Option.bind_some,
    bitsToDigits_fixnumLength, Bool.true_and]
  by_cases hs : (x.length - 1) * w.digitLength ≤ w.fixnumLength
  · simp only [hs, ↓reduceIte, Option.bind_some]
  · simp only [hs, ↓reduceIte, failure, Option.bind_none]

theorem bignumFitsInWordP_one (h : digitCount w z = 1) :
    bignumFitsInWordP w (Bignum.ofInt w z) (w.fixnumLength + 1) true
      = some (decide (InFixnumRange w z)) := by
  have hlen : (Bignum.ofInt w z).length = 1 := h
  obtain ⟨href, hpos, hlt⟩ := ref_ofInt_of_length_one hlen
  have hL := longLimit_eq_fixnum (w := w)
  have hP := fixnumSignBit_pos (w := w)
  rw [bignumFitsInWordP_fixnum, hlen, show 1 % uintLimit = 1 from rfl, zero_mul, Nat.sub_zero, href]
  change (w.nat w.fixnumSignBit).bind _ = _
  rw [w.nat_eq (by omega)]
  simp only [Option.bind_some, Option.some.injEq]
  rw [Bool.eq_iff_iff]
  simp only [Bignum.ofInt, Bool.or_eq_true, Bool.and_eq_true, decide_eq_true_eq]
  unfold InFixnumRange
  omega

theorem eq_zero_of_digitCount (h : digitCount w z = 0) : z = 0 := by
  have := Nat.digits_eq_nil_iff_eq_zero.mp (List.length_eq_zero_iff.mp h)
  omega

theorem inRange_zero : InFixnumRange w 0 := by
  have := fixnumSignBit_pos (w := w)
  exact ⟨by omega, by omega⟩

theorem not_lengthSurvives (h : uintLimit ≤ digitCount w z)
    (hm : digitCount w z % uintLimit ≤ 1) : ¬ LengthSurvives w z := by
  unfold LengthSurvives
  omega

theorem bignumToInteger_of_inRange (h : InFixnumRange w z)
    (hfits : bignumFitsInWordP w (Bignum.ofInt w z) (w.fixnumLength + 1) true = some true) :
    bignumToInteger w (Bignum.ofInt w z) = some (ExactInteger.ofInt w z) := by
  unfold bignumToInteger
  rw [hfits]
  simp only [Option.bind_eq_bind, Option.bind_some, ↓reduceIte]
  rw [bignumToLong_of_inRange h, Option.bind_some, longToFixnum_eq h]

theorem bignumToInteger_of_not_inRange (h : ¬ InFixnumRange w z)
    (hfits : bignumFitsInWordP w (Bignum.ofInt w z) (w.fixnumLength + 1) true = some false) :
    bignumToInteger w (Bignum.ofInt w z) = some (ExactInteger.ofInt w z) := by
  unfold bignumToInteger ExactInteger.ofInt
  rw [hfits, if_neg h]
  rfl

theorem bignumToInteger_ne_bignum {x y : Bignum}
    (hfits : bignumFitsInWordP w x (w.fixnumLength + 1) true = some true) :
    bignumToInteger w x ≠ some (bignum y) := by
  unfold bignumToInteger
  rw [hfits]
  intro h
  cases hl : bignumToLong w x with
  | none => rw [hl] at h; cases h
  | some n =>
      rw [hl] at h
      cases h

/-- **The way back from a bignum**, exact if and only if the length survives the cast. -/
theorem bignumToInteger_returns_iff (z : Int) :
    Returns w (bignumToInteger w (Bignum.ofInt w z)) z ↔ LengthSurvives w z := by
  rw [returns_iff]
  have hlen : (Bignum.ofInt w z).length = digitCount w z := rfl
  have hU : 1 < uintLimit := by decide
  have hfits := bignumFitsInWordP_fixnum (w := w) (Bignum.ofInt w z)
  rw [hlen] at hfits
  rcases lt_trichotomy (digitCount w z % uintLimit) 1 with hlt | heq | hgt
  · rw [if_pos hlt] at hfits
    by_cases hz : digitCount w z = 0
    · obtain rfl := eq_zero_of_digitCount hz
      rw [bignumToInteger_of_inRange inRange_zero hfits]
      exact iff_of_true rfl (lengthSurvives_of_inRange inRange_zero)
    · -- a multiple of `2 ^ 32` digits passes for no digits
      have hbig : uintLimit ≤ digitCount w z := by
        by_contra hsmall
        rw [mod_eq_of_lt (by omega)] at hlt
        omega
      refine iff_of_false ?_ (not_lengthSurvives hbig (by omega))
      rw [ExactInteger.ofInt, if_neg (not_inRange_of_two_le (by omega))]
      exact bignumToInteger_ne_bignum hfits
  · by_cases hone : digitCount w z = 1
    · refine iff_of_true ?_ (Or.inl (by omega))
      have h1 := bignumFitsInWordP_one hone
      by_cases hr : InFixnumRange w z
      · exact bignumToInteger_of_inRange hr (by simpa [hr] using h1)
      · exact bignumToInteger_of_not_inRange hr (by simpa [hr] using h1)
    · -- one more than a multiple of `2 ^ 32`: the shift is undefined
      have hbig : uintLimit ≤ digitCount w z := by
        by_contra hsmall
        rw [mod_eq_of_lt (by omega)] at heq
        omega
      refine iff_of_false ?_ (not_lengthSurvives hbig heq.le)
      have hguard : ¬ (digitCount w z - 1) * w.digitLength ≤ w.fixnumLength := by
        have := w.fixnumLength_lt
        have : 1 * w.digitLength ≤ (digitCount w z - 1) * w.digitLength :=
          Nat.mul_le_mul_right _ (by omega)
        omega
      rw [if_neg (by omega), if_neg (by omega), if_neg hguard] at hfits
      unfold bignumToInteger
      rw [hfits]
      intro h
      cases h
  · rw [if_neg (by omega), if_pos hgt] at hfits
    have hbig : 2 ≤ digitCount w z := Nat.le_trans hgt (Nat.mod_le _ _)
    exact iff_of_true (bignumToInteger_of_not_inRange (not_inRange_of_two_le hbig) hfits)
      (Or.inr hgt)

/-! ## Fixnum multiplication -/

theorem two_halfWordSize : w.objectLength = w.halfWordSize + w.halfWordSize := by
  unfold Word.halfWordSize objectLength digitLength
  omega

theorem halfWordSize_le : w.halfWordSize ≤ w.fixnumLength := by
  have := w.le_half
  unfold Word.halfWordSize fixnumLength datumLength objectLength digitLength
  omega

theorem mul_halves_of_inRange {p : Int} (h : InFixnumRange w p) :
    (p.natAbs >>> w.halfWordSize) &&& (2 ^ w.halfWordSize - 1)
      = p.natAbs / 2 ^ w.halfWordSize := by
  have hW := two_pow_objectLength (w := w)
  obtain ⟨h1, h2⟩ := h
  rw [Nat.and_two_pow_sub_one_eq_mod, Nat.shiftRight_eq_div_pow, mod_eq_of_lt]
  rw [Nat.div_lt_iff_lt_mul (two_pow_pos _), ← Nat.pow_add, ← two_halfWordSize]
  omega

theorem product_of_halves {a b H : Nat} (h : a / H = 0 ∨ b / H = 0) :
    a * b = a % H * (b % H) + (a % H * (b / H) + a / H * (b % H)) * H := by
  have ha := Nat.div_add_mod a H
  have hb := Nat.div_add_mod b H
  rcases h with h | h
  · rw [h] at ha ⊢
    nlinarith
  · rw [h] at hb ⊢
    nlinarith

theorem half_products_lt {x y n : Nat} (hx : x < 2 ^ n) (hy : y < 2 ^ n) :
    x * y < 2 ^ (n + n) := by
  rw [Nat.pow_add]
  exact Nat.mul_lt_mul'' hx hy

theorem longToUnsignedFixnum_eq {n : Nat} (hz : InFixnumRange w z)
    (hn : n = (z % (2 ^ w.datumLength : Nat)).toNat) :
    longToUnsignedFixnum w n = some (ExactInteger.ofInt w z) := by
  have hD := two_pow_datumLength (w := w)
  unfold longToUnsignedFixnum ExactInteger.ofInt
  rw [if_pos hz, ← hn, if_pos]
  rw [emod_datum hz] at hn
  obtain ⟨h1, h2⟩ := hz
  unfold Word.datumMask
  split at hn <;> omega

/-- **`Mul` gives up or is exact.** -/
theorem mul_spec {p q : Int} (hp : InFixnumRange w p) (hq : InFixnumRange w q) :
    mul w (p % (2 ^ w.datumLength : Nat)).toNat (q % (2 ^ w.datumLength : Nat)).toNat
        = some sharpF
      ∨ mul w (p % (2 ^ w.datumLength : Nat)).toNat (q % (2 ^ w.datumLength : Nat)).toNat
        = some (ExactInteger.ofInt w (p * q)) := by
  have hL := longLimit_eq_fixnum (w := w)
  have hW := two_pow_objectLength (w := w)
  unfold mul
  simp only [fixnumToLong_emod hp, fixnumToLong_emod hq, mul_halves_of_inRange hp,
    mul_halves_of_inRange hq, Nat.and_two_pow_sub_one_eq_mod]
  generalize hHdef : w.halfWordSize = n
  have hobj : w.objectLength = n + n := hHdef ▸ two_halfWordSize
  have hfix : n ≤ w.fixnumLength := hHdef ▸ halfWordSize_le
  split
  · exact Or.inl rfl
  rename_i hhi
  have hzero : p.natAbs / 2 ^ n = 0 ∨ q.natAbs / 2 ^ n = 0 := by
    rw [not_and_or, Nat.not_lt, Nat.not_lt, Nat.le_zero, Nat.le_zero] at hhi
    exact hhi
  have hla := mod_lt p.natAbs (two_pow_pos n)
  have hlb := mod_lt q.natAbs (two_pow_pos n)
  have hha : p.natAbs / 2 ^ n < 2 ^ n := by
    rw [Nat.div_lt_iff_lt_mul (two_pow_pos _), ← Nat.pow_add, ← hobj]
    obtain ⟨_, _⟩ := hp
    omega
  have hhb : q.natAbs / 2 ^ n < 2 ^ n := by
    rw [Nat.div_lt_iff_lt_mul (two_pow_pos _), ← Nat.pow_add, ← hobj]
    obtain ⟨_, _⟩ := hq
    omega
  rw [mod_eq_of_lt (a := p.natAbs % 2 ^ n * (q.natAbs % 2 ^ n))
    (hobj ▸ half_products_lt hla hlb)]
  split
  · exact Or.inl rfl
  have hmid : p.natAbs % 2 ^ n * (q.natAbs / 2 ^ n)
      + p.natAbs / 2 ^ n * (q.natAbs % 2 ^ n) < 2 ^ w.objectLength := by
    rw [hobj]
    rcases hzero with h | h
    · rw [h, zero_mul]
      exact half_products_lt hla hhb
    · rw [h, Nat.mul_zero, Nat.zero_add]
      exact half_products_lt hha hlb
  rw [mod_eq_of_lt hmid]
  split
  · exact Or.inl rfl
  have hprod := product_of_halves hzero
  rw [Nat.shiftLeft_eq]
  generalize p.natAbs % 2 ^ n * (q.natAbs / 2 ^ n)
    + p.natAbs / 2 ^ n * (q.natAbs % 2 ^ n) = middle at *
  have hshift : middle * 2 ^ n < w.fixnumSignBit := by
    unfold fixnumSignBit
    rw [show w.fixnumLength = (w.datumLength - 1 - n) + n by
      rw [datumLength_eq]
      omega, Nat.pow_add]
    exact Nat.mul_lt_mul_of_pos_right (by omega) (two_pow_pos _)
  rw [← hprod]
  rw [mod_eq_of_lt (by omega)]
  rw [show w.toLong (p.natAbs * q.natAbs) = (p.natAbs * q.natAbs : Nat) from if_pos (by omega)]
  split
  · rename_i hfits
    rw [longToFixnumP_iff (by omega) (by omega)] at hfits
    refine Or.inr ?_
    obtain ⟨_, hup⟩ := hfits
    split
    · rename_i hsign
      -- equal signs, or a product of zero
      have hpq : p * q = (p.natAbs * q.natAbs : Nat) := by
        rw [← Int.natAbs_mul]
        rcases Bool.or_eq_true _ _ |>.mp hsign with h | h
        · rw [beq_iff_eq, decide_eq_decide] at h
          have : 0 ≤ p * q := by
            by_cases hp0 : p < 0
            · exact Int.mul_nonneg_of_nonpos_of_nonpos hp0.le (h.mp hp0).le
            · exact Int.mul_nonneg (by omega) (by omega)
          omega
        · rw [beq_iff_eq, ← Int.natAbs_mul] at h
          omega
      refine longToUnsignedFixnum_eq ?_ ?_
      · exact ⟨by omega, by omega⟩
      · rw [emod_datum, if_pos (by omega)]
        · omega
        · exact ⟨by omega, by omega⟩
    · rename_i hsign
      rw [Bool.or_eq_true, beq_iff_eq, beq_iff_eq, decide_eq_decide] at hsign
      have hpq : p * q = -(p.natAbs * q.natAbs : Nat) := by
        rw [← Int.natAbs_mul]
        have : p * q ≤ 0 := by
          by_cases hp0 : p < 0
          · exact Int.mul_nonpos_of_nonpos_of_nonneg hp0.le (by omega)
          · exact Int.mul_nonpos_of_nonneg_of_nonpos (by omega) (by omega)
        omega
      have hr : InFixnumRange w (p * q) := by
        exact ⟨by omega, by omega⟩
      refine longToUnsignedFixnum_eq hr ?_
      rw [emod_datum hr, if_neg (by omega)]
      omega
  · exact Or.inl rfl

end MitScheme
