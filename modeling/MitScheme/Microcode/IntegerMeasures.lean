import MitScheme.Microcode.BignumMeasures
import MitScheme.Microcode.IntegerRoundTrips

/-!
# Measures of the bits of an integer

`artutl.c`: a fixnum is measured in a machine word, a bignum by the loops of `bignum.c`. The two
measure the same thing, so an integer that happens to be represented by a bignum although it would
fit in a fixnum has the measures of the fixnum.
-/

namespace MitScheme

open BitCounts TwosComplement ExactInteger Option
open Bignum hiding ofInt

variable (w : Word)

def integerLengthInBits : ExactInteger → Option ExactInteger
  | fixnum n => do
      let n1 := fixnumToLong w n
      let n1 ← (if n1 < 0 then w.long (-n1) else some n1)
      longToUnsignedFixnum w (ulongLengthInBits w (w.toUlong n1))
  | bignum x => some (ulongToInteger w (bignumLengthInBits w x))
  | sharpF => none

def integerLength : ExactInteger → Option ExactInteger
  | fixnum n =>
      let n1 := fixnumToLong w n
      longToUnsignedFixnum w (ulongLengthInBits w (w.toUlong (if n1 < 0 then Int.lnot n1 else n1)))
  | bignum x => some (ulongToInteger w (bignumIntegerLength w x))
  | sharpF => none

def integerFirstSetBit : ExactInteger → Option ExactInteger
  | fixnum n =>
      let n1 := fixnumToLong w n
      some (longToFixnum w (ulongFirstSetBit w
        (if n1 < 0 then w.ulongMax - w.toUlong (Int.lnot n1) else w.toUlong n1)))
  | bignum x => do
      let e ← bignumFirstSetBit w x
      some (longToInteger w e)
  | sharpF => none

def integerBitCount : ExactInteger → Option ExactInteger
  | fixnum n =>
      let n1 := fixnumToLong w n
      longToUnsignedFixnum w (ulongBitCount w (w.toUlong (if n1 < 0 then Int.lnot n1 else n1)))
  | bignum x => do
      let count ← bignumBitCount w x
      some (ulongToInteger w count)
  | sharpF => none

/-- `integer_hamming_distance`; `same` says whether the operands are one object. -/
def integerHammingDistance (same : Bool) : ExactInteger → ExactInteger → Option ExactInteger
  | fixnum n, fixnum m =>
      let x := Int.xor (fixnumToLong w n) (fixnumToLong w m)
      if x < 0 then some (longToFixnum w (-1))
      else longToUnsignedFixnum w (ulongBitCount w (w.toUlong x))
  | n, m => do
      let x ← integerToBignum w n
      let y ← integerToBignum w m
      let distance ← bignumHammingDistance w same x y
      some (longToInteger w distance)

/-- **What an operand can be**: a fixnum, or a bignum of a length that `bignum_allocate` lets pass,
also one that would fit in a fixnum. -/
def Allocated : ExactInteger → Prop
  | fixnum datum => datum < 2 ^ w.datumLength
  | bignum x => x.WellFormed w ∧ x.length ≤ w.bignumLengthMax
  | sharpF => False

/-- **The measures of an integer.** -/
structure BitMeasures (w : Word) (n : ExactInteger) (z : Int) : Prop where
  length : ∃ k : Nat, integerLength w n = some (ofInt w k)
    ∧ IsLeast {i : Nat | -(2 : Int) ^ i ≤ z ∧ z < 2 ^ i} k
  lengthInBits : integerLengthInBits w n = some (ofInt w (Nat.size z.natAbs))
  firstSetBit : ∃ e, integerFirstSetBit w n = some (ofInt w e) ∧ FirstSetBit z e
  bitCount : integerBitCount w n = some (ofInt w (onesCount (signedBits z)))

variable {w}

/-! ## Fixnums -/

theorem objectLength_lt_fixnumSignBit : w.objectLength < w.fixnumSignBit := by
  have hlen := objectLength_eq (w := w)
  have hle := w.le_half
  have hdef : w.objectLength = 2 * w.half + 2 := rfl
  obtain ⟨t, ht⟩ := Nat.exists_eq_add_of_le (show 7 ≤ w.fixnumLength by omega)
  have hlt := Nat.lt_two_pow_self (n := t)
  unfold Word.fixnumSignBit
  rw [ht, Nat.pow_add]
  omega

theorem inRange_of_le {n : Nat} (h : n ≤ w.objectLength) : InFixnumRange w n := by
  have := objectLength_lt_fixnumSignBit (w := w)
  exact ⟨by omega, by omega⟩

theorem ulongToFixnum_eq {n : Nat} (h : n ≤ w.objectLength) :
    longToUnsignedFixnum w n = some (ofInt w n) := by
  have hlt := objectLength_lt_fixnumSignBit (w := w)
  have hD := two_pow_datumLength (w := w)
  refine longToUnsignedFixnum_eq (inRange_of_le h) ?_
  rw [Int.emod_eq_of_lt (by omega) (by omega), Int.toNat_natCast]

theorem two_pow_object : 2 ^ w.objectLength = 2 * w.longLimit := by
  rw [two_pow_objectLength, longLimit_eq_fixnum]
  omega

variable {z : Int} {n : ExactInteger}

theorem toUlong_signedBits (h : InFixnumRange w z) :
    w.toUlong (if z < 0 then Int.lnot z else z) = signedBits z
      ∧ signedBits z < 2 ^ w.objectLength := by
  have hlong := inRange_long h
  have hpow := two_pow_object (w := w)
  unfold signedBits Word.toUlong
  rw [lnot_eq]
  split
  · rw [Int.emod_eq_of_lt (by omega) (by omega)]
    omega
  · rw [Int.emod_eq_of_lt (by omega) (by omega)]
    omega

theorem size_le_objectLength {n : Nat} (h : n < 2 ^ w.objectLength) : Nat.size n ≤ w.objectLength :=
  Nat.size_le.mpr h

theorem integerLength_fixnum (hw : w.ByteSized) (h : InFixnumRange w z) :
    integerLength w (fixnum (z % (2 ^ w.datumLength : Nat)).toNat)
      = some (ofInt w (Nat.size (signedBits z))) := by
  obtain ⟨heq, hlt⟩ := toUlong_signedBits h
  rw [integerLength, fixnumToLong_emod h]
  rw [heq, ulongLengthInBits_eq hw hlt, ulongToFixnum_eq (size_le_objectLength hlt)]

theorem integerLengthInBits_fixnum (hw : w.ByteSized) (h : InFixnumRange w z) :
    integerLengthInBits w (fixnum (z % (2 ^ w.datumLength : Nat)).toNat)
      = some (ofInt w (Nat.size z.natAbs)) := by
  have hlong := inRange_long h
  have hpow := two_pow_object (w := w)
  have hlt : z.natAbs < 2 ^ w.objectLength := by omega
  have habs : (if z < 0 then w.long (-z) else some z) = some (z.natAbs : Int) := by
    split
    · rw [w.long_eq (by omega)]
      congr 1
      omega
    · congr 1
      omega
  have htoUlong : w.toUlong (z.natAbs : Int) = z.natAbs := by
    rw [Word.toUlong, Int.emod_eq_of_lt (by omega) (by omega), Int.toNat_natCast]
  rw [integerLengthInBits, fixnumToLong_emod h]
  rw [habs, bind_eq_bind, bind_some, htoUlong, ulongLengthInBits_eq hw hlt,
    ulongToFixnum_eq (size_le_objectLength hlt)]

theorem integerBitCount_fixnum (hw : w.ByteSized) (h : InFixnumRange w z) :
    integerBitCount w (fixnum (z % (2 ^ w.datumLength : Nat)).toNat)
      = some (ofInt w (onesCount (signedBits z))) := by
  obtain ⟨heq, hlt⟩ := toUlong_signedBits h
  rw [integerBitCount, fixnumToLong_emod h]
  rw [heq, ulongBitCount_eq hw hlt, ulongToFixnum_eq (onesCount_le hlt)]

theorem toUlong_odd_part {e q : Nat} (h : InFixnumRange w z) (hz : z.natAbs = 2 ^ e * (2 * q + 1)) :
    ∃ p, w.toUlong z = 2 ^ e * (2 * p + 1) ∧ 2 ^ e * (2 * p + 1) < 2 ^ w.objectLength := by
  have hlong := inRange_long h
  have hpow := two_pow_object (w := w)
  unfold Word.toUlong
  by_cases hneg : z < 0
  · have hle : 2 ^ e ≤ 2 ^ e * (2 * q + 1) := Nat.le_mul_of_pos_right _ (by omega)
    have he : e < w.objectLength :=
      (Nat.pow_lt_pow_iff_right (show 1 < 2 by decide)).mp (by omega)
    obtain ⟨t, ht⟩ := Nat.exists_eq_add_of_lt he
    have hsplit : 2 ^ w.objectLength = 2 ^ e * (2 * 2 ^ t) := by
      rw [ht, Nat.pow_add]
      ring
    have hq : q < 2 ^ t := by
      by_contra hq
      have : 2 ^ e * (2 * 2 ^ t) ≤ 2 ^ e * (2 * q + 1) := Nat.mul_le_mul_left _ (by omega)
      omega
    obtain ⟨p, hp⟩ := Nat.exists_eq_add_of_lt hq
    have hmul : 2 ^ w.objectLength = 2 ^ e * (2 * q + 1) + 2 ^ e * (2 * p + 1) := by
      rw [hsplit, hp]
      ring
    refine ⟨p, ?_, by omega⟩
    rw [← Int.add_emod_right, Int.emod_eq_of_lt (by omega) (by omega)]
    omega
  · refine ⟨q, ?_, by omega⟩
    rw [Int.emod_eq_of_lt (by omega) (by omega)]
    omega

theorem integerFirstSetBit_fixnum (hw : w.ByteSized) (h : InFixnumRange w z) :
    ∃ e, integerFirstSetBit w (fixnum (z % (2 ^ w.datumLength : Nat)).toNat) = some (ofInt w e)
      ∧ FirstSetBit z e := by
  have hlong := inRange_long h
  have hpow := two_pow_object (w := w)
  have hword : (if z < 0 then w.ulongMax - w.toUlong (Int.lnot z) else w.toUlong z)
      = w.toUlong z := by
    split
    · rw [lnot_eq]
      unfold Word.ulongMax Word.toUlong
      rw [Int.emod_eq_of_lt (by omega) (by omega), ← Int.add_emod_right (a := z),
        Int.emod_eq_of_lt (by omega) (by omega)]
      omega
    · rfl
  rw [integerFirstSetBit, fixnumToLong_emod h]
  rw [hword]
  by_cases hz : z = 0
  · have hrange : InFixnumRange w (-1) := by
      have := fixnumSignBit_pos (w := w)
      exact ⟨by omega, by omega⟩
    refine ⟨-1, ?_, by rw [FirstSetBit, if_pos hz]⟩
    rw [hz, show w.toUlong 0 = 0 by simp [Word.toUlong], ulongFirstSetBit, if_pos rfl,
      longToFixnum_eq hrange]
  · obtain ⟨e, q, hodd⟩ := exists_odd_part (show z.natAbs ≠ 0 by omega)
    obtain ⟨p, hp, hlt⟩ := toUlong_odd_part h hodd
    have hle : 2 ^ e ≤ 2 ^ e * (2 * p + 1) := Nat.le_mul_of_pos_right _ (by omega)
    have he : e < w.objectLength :=
      (Nat.pow_lt_pow_iff_right (show 1 < 2 by decide)).mp (by omega)
    refine ⟨e, ?_, firstSetBit_of_odd_part hodd⟩
    rw [hp, ulongFirstSetBit_eq hw hlt, longToFixnum_eq (inRange_of_le he.le)]

/-! ## Bignums -/

theorem one_le_bignumLengthMax : 1 ≤ w.bignumLengthMax := by
  obtain ⟨t, ht⟩ := Nat.exists_eq_add_of_le w.le_half
  have hlt := Nat.lt_two_pow_self (n := t)
  have hroot : 2 * w.half + 1 ≤ w.radixRoot := by
    rw [Word.radixRoot, ht, Nat.pow_add]
    omega
  have hsquare : (w.digitLength + 1) * w.digitLength ≤ w.radix := by
    rw [w.radix_eq]
    exact Nat.mul_le_mul hroot (Nat.le_of_succ_le hroot)
  have := (Nat.le_div_iff_mul_le digitLength_pos).mpr hsquare
  unfold Word.bignumLengthMax
  omega

theorem integerToBignum_allocated (h : Allocated w n) :
    integerToBignum w n = some (Bignum.ofInt w (n.value w))
      ∧ digitCount w (n.value w) ≤ w.bignumLengthMax := by
  cases n with
  | fixnum datum =>
      have hrange := fixnumToLong_inRange (w := w) h
      have hlong := inRange_long hrange
      refine ⟨?_, (digitCount_le_one_of_inRange hrange).trans one_le_bignumLengthMax⟩
      rw [integerToBignum, longToBignum_eq (by omega) (by omega)]
      rfl
  | bignum x =>
      obtain ⟨hx, hlen⟩ := h
      have heq := hx.eq_ofInt
      refine ⟨congrArg some heq, ?_⟩
      rw [heq] at hlen
      exact hlen
  | sharpF => exact absurd h id

theorem Allocated.eq (h : Allocated w n) :
    (InFixnumRange w (n.value w) ∧ n = fixnum (n.value w % (2 ^ w.datumLength : Nat)).toNat)
      ∨ n = bignum (Bignum.ofInt w (n.value w)) := by
  cases n with
  | fixnum datum =>
      have hrange := fixnumToLong_inRange (w := w) h
      have hcanonical : (fixnum datum).Canonical w := h
      have heq := canonical_iff.mp ⟨hcanonical, rfl⟩
      rw [show (fixnum datum).value w = fixnumToLong w datum from rfl] at heq ⊢
      rw [ofInt_of_inRange hrange] at heq
      exact Or.inl ⟨hrange, heq⟩
  | bignum x => exact Or.inr (congrArg bignum h.1.eq_ofInt)
  | sharpF => exact absurd h id

theorem isLeast_size_signedBits (z : Int) :
    IsLeast {i : Nat | -(2 : Int) ^ i ≤ z ∧ z < 2 ^ i} (Nat.size (signedBits z)) := by
  have hiff : ∀ i : Nat, (-(2 : Int) ^ i ≤ z ∧ z < 2 ^ i) ↔ Nat.size (signedBits z) ≤ i := by
    intro i
    have hcast : (2 : Int) ^ i = ((2 ^ i : Nat) : Int) := by simp
    rw [Nat.size_le]
    unfold signedBits
    rw [lnot_eq]
    split <;> omega
  exact ⟨(hiff _).mpr le_rfl, fun i hi => (hiff i).mp hi⟩

theorem size_signedBits_le (z : Int) : Nat.size (signedBits z) ≤ Nat.size z.natAbs := by
  refine Nat.size_le_size ?_
  unfold signedBits
  rw [lnot_eq]
  split <;> omega

theorem ulongToInteger_of_lt_radix {n : Nat} (h : n < w.radix) :
    ulongToInteger w n = ofInt w n := ulongToInteger_eq (h.trans radix_lt_ulong)

/-- **An operand has the measures of its value.** -/
theorem bitMeasures_allocated (hw : w.ByteSized) (h : Allocated w n) :
    BitMeasures w n (n.value w) := by
  have hmax := (integerToBignum_allocated h).2
  have heq := h.eq
  generalize n.value w = z at *
  rcases heq with ⟨hrange, rfl⟩ | rfl
  · exact ⟨⟨_, integerLength_fixnum hw hrange, isLeast_size_signedBits z⟩,
      integerLengthInBits_fixnum hw hrange, integerFirstSetBit_fixnum hw hrange,
      integerBitCount_fixnum hw hrange⟩
  · have hlt := digitLength_mul_lt hmax
    have hsize := size_natAbs_le (w := w) (z := z)
    have hsigned := size_signedBits_le z
    have hcount : onesCount (signedBits z) ≤ Nat.size (signedBits z) :=
      onesCount_le (Nat.lt_size_self _)
    have hlimit := w.longLimit_eq
    obtain ⟨e, he, hbit, hle, hlt'⟩ := bignumFirstSetBit_ofInt hw hmax
    refine ⟨⟨_, ?_, isLeast_size_signedBits z⟩, ?_, ⟨e, ?_, hbit⟩, ?_⟩
    · rw [integerLength, bignumIntegerLength_ofInt hw hmax, ulongToInteger_of_lt_radix (by omega)]
    · rw [integerLengthInBits, bignumLengthInBits_ofInt hw hmax,
        ulongToInteger_of_lt_radix (by omega)]
    · rw [integerFirstSetBit, he, bind_eq_bind, bind_some,
        longToInteger_eq (by omega) (by omega)]
    · rw [integerBitCount, bignumBitCount_ofInt hw hmax, bind_eq_bind, bind_some,
        ulongToInteger_of_lt_radix (by omega)]

/-! ## The Hamming distance -/

theorem xor_neg_iff (p q : Int) : Int.xor p q < 0 ↔ ¬ (p < 0 ↔ q < 0) := by
  cases p with
  | ofNat a =>
      cases q with
      | ofNat b => exact iff_of_false (by simp [Int.xor]) (by simp; omega)
      | negSucc b => exact iff_of_true (by simp [Int.xor]) (by simp)
  | negSucc a =>
      cases q with
      | ofNat b => exact iff_of_true (by simp [Int.xor]) (by simp)
      | negSucc b => exact iff_of_false (by simp [Int.xor]) (by simp)

theorem hammingDistance_fixnums (hw : w.ByteSized) {p q : Int} (hp : InFixnumRange w p)
    (hq : InFixnumRange w q) (same : Bool) :
    integerHammingDistance w same (fixnum (p % (2 ^ w.datumLength : Nat)).toNat)
        (fixnum (q % (2 ^ w.datumLength : Nat)).toNat) = some (ofInt w (hammingDistance p q)) := by
  rw [integerHammingDistance, fixnumToLong_emod hp, fixnumToLong_emod hq]
  by_cases hsign : p < 0 ↔ q < 0
  · have hneg : ¬ Int.xor p q < 0 := fun h => (xor_neg_iff p q).mp h hsign
    have hlt : signedBits (Int.xor p q) < 2 ^ w.objectLength := by
      rw [signedBits_xor hsign]
      exact Nat.xor_lt_two_pow (toUlong_signedBits hp).2 (toUlong_signedBits hq).2
    have hulong : w.toUlong (Int.xor p q) = signedBits (Int.xor p q) := by
      unfold signedBits at hlt ⊢
      rw [if_neg hneg] at hlt ⊢
      rw [Word.toUlong, Int.emod_eq_of_lt (by omega) (by omega)]
    rw [if_neg hneg, hulong, ulongBitCount_eq hw hlt, ulongToFixnum_eq (onesCount_le hlt),
      hammingDistance, if_pos hsign]
  · have hrange : InFixnumRange w (-1) := by
      have := fixnumSignBit_pos (w := w)
      exact ⟨by omega, by omega⟩
    rw [if_pos ((xor_neg_iff p q).mpr hsign), hammingDistance, if_neg hsign, longToFixnum_eq hrange]

theorem integerHammingDistance_allocated (hw : w.ByteSized) {m : ExactInteger} {same : Bool}
    (hn : Allocated w n) (hm : Allocated w m) (hsame : same = true → n = m) :
    integerHammingDistance w same n m
      = some (ofInt w (hammingDistance (n.value w) (m.value w))) := by
  obtain ⟨hx, hxmax⟩ := integerToBignum_allocated hn
  obtain ⟨hy, hymax⟩ := integerToBignum_allocated hm
  have hvalue : same = true → n.value w = m.value w := fun h => by rw [hsame h]
  have hlt := signedBits_xor_lt hxmax hymax
  have hlimit := w.longLimit_eq
  have hrange : -1 ≤ hammingDistance (n.value w) (m.value w)
      ∧ hammingDistance (n.value w) (m.value w) < w.radix := by
    unfold hammingDistance
    split
    · rename_i h
      rw [signedBits_xor h]
      omega
    · exact ⟨le_rfl, by omega⟩
  have hvia : ((integerToBignum w n).bind fun x => (integerToBignum w m).bind fun y =>
      (bignumHammingDistance w same x y).bind fun distance => some (longToInteger w distance))
        = some (ofInt w (hammingDistance (n.value w) (m.value w))) := by
    rw [hx, hy, bind_some, bind_some,
      bignumHammingDistance_ofInt hw hvalue hxmax hymax, bind_some,
      longToInteger_eq (by omega) (by omega)]
  cases n with
  | fixnum datum =>
      cases m with
      | fixnum datum' =>
          rcases hn.eq with ⟨hp, hfix⟩ | hbig
          · rcases hm.eq with ⟨hq, hfix'⟩ | hbig
            · have hfixnums := hammingDistance_fixnums hw hp hq same
              rw [← hfix, ← hfix'] at hfixnums
              exact hfixnums
            · cases hbig
          · cases hbig
      | bignum y => exact hvia
      | sharpF => exact absurd hm id
  | bignum x => exact hvia
  | sharpF => exact absurd hn id

theorem BitMeasures.agree {m : ExactInteger} (hn : BitMeasures w n z) (hm : BitMeasures w m z) :
    integerLength w n = integerLength w m ∧ integerLengthInBits w n = integerLengthInBits w m
      ∧ integerFirstSetBit w n = integerFirstSetBit w m ∧ integerBitCount w n = integerBitCount w m := by
  obtain ⟨k, hk, hleast⟩ := hn.length
  obtain ⟨k', hk', hleast'⟩ := hm.length
  obtain ⟨e, he, hbit⟩ := hn.firstSetBit
  obtain ⟨e', he', hbit'⟩ := hm.firstSetBit
  refine ⟨?_, hn.lengthInBits.trans hm.lengthInBits.symm, ?_, hn.bitCount.trans hm.bitCount.symm⟩
  · rw [hk, hk', hleast.unique hleast']
  · rw [he, he', hbit.unique hbit']

/-- **The bit measures.** Every operand has the measures of its value, every pair of operands its
Hamming distance, and operands of one value, a fixnum and a bignum, agree. -/
theorem bit_measures (hw : w.ByteSized) :
    (∀ n, Allocated w n → BitMeasures w n (n.value w))
    ∧ (∀ n m (same : Bool), Allocated w n → Allocated w m → (same = true → n = m) →
        integerHammingDistance w same n m
          = some (ofInt w (hammingDistance (n.value w) (m.value w))))
    ∧ ∀ n m, Allocated w n → Allocated w m → n.value w = m.value w →
        (integerLength w n = integerLength w m ∧ integerLengthInBits w n = integerLengthInBits w m
          ∧ integerFirstSetBit w n = integerFirstSetBit w m
          ∧ integerBitCount w n = integerBitCount w m)
        ∧ ∀ p (same same' : Bool), Allocated w p → (same = true → n = p) → (same' = true → m = p) →
          integerHammingDistance w same n p = integerHammingDistance w same' m p := by
  refine ⟨fun n hn => bitMeasures_allocated hw hn,
    fun n m same hn hm hsame => integerHammingDistance_allocated hw hn hm hsame, ?_⟩
  intro n m hn hm hvalue
  have hn' := bitMeasures_allocated hw hn
  have hm' := bitMeasures_allocated hw hm
  rw [hvalue] at hn'
  refine ⟨hn'.agree hm', fun p same same' hp hsame hsame' => ?_⟩
  rw [integerHammingDistance_allocated hw hn hp hsame,
    integerHammingDistance_allocated hw hm hp hsame', hvalue]

theorem bit_measures_w64 :
    BitMeasures w64 (bignum ⟨true, [0, 2]⟩) ((bignum ⟨true, [0, 2]⟩).value w64)
    ∧ integerHammingDistance w64 false (bignum ⟨true, [0, 2]⟩) (fixnum 5)
      = some (ofInt w64 (hammingDistance ((bignum ⟨true, [0, 2]⟩).value w64) ((fixnum 5).value w64)))
    ∧ integerBitCount w64 (fixnum 5) = integerBitCount w64 (bignum ⟨false, [5]⟩) :=
  have hbig : Allocated w64 (bignum ⟨true, [0, 2]⟩) := ⟨⟨by decide, by decide, by decide⟩, by decide⟩
  have hfix : Allocated w64 (fixnum 5) := show 5 < 2 ^ w64.datumLength by decide
  have hfive : Allocated w64 (bignum ⟨false, [5]⟩) := ⟨⟨by decide, by decide, by decide⟩, by decide⟩
  ⟨(bit_measures w64_byteSized).1 _ hbig,
    (bit_measures w64_byteSized).2.1 _ _ false hbig hfix (by decide),
    ((bit_measures w64_byteSized).2.2 _ _ hfix hfive (by decide)).1.2.2.2⟩

end MitScheme
