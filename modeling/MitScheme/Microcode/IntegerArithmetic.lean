import MitScheme.Microcode.IntegerProof

/-!
# Exact integer arithmetic

The six operations of `artutl.c` on canonical operands. Each of them is exact and
canonical if and only if the length of its result survives the cast in
`bignum_fits_in_word_p`; the fixnum fast paths never meet the cast, and a result
that comes out of a fast path is short enough anyway.
-/

namespace MitScheme

open DigitList ExactInteger Option
open Bignum hiding ofInt

variable {w : Word}

variable {z p q : Int}

theorem lengthSurvives_of_lt (h : z.natAbs < w.radix ^ 2) : LengthSurvives w z := by
  have : digitCount w z ≤ 2 := (Nat.digits_length_le_iff w.one_lt_radix _).mpr h
  exact Or.inl (by unfold uintLimit; omega)

theorem lengthSurvives_of_long (h1 : -(w.longLimit : Int) < z)
    (h2 : z < w.longLimit) : LengthSurvives w z := by
  refine lengthSurvives_of_lt ?_
  have hL := w.longLimit_eq
  have hsq : 2 * w.radix ≤ w.radix * w.radix :=
    Nat.mul_le_mul_right _ (le_trans (by decide) w.radix_ge)
  rw [Nat.pow_two]
  omega

theorem longToInteger_returns_iff (h1 : -(w.longLimit : Int) < z)
    (h2 : z < w.longLimit) : Returns w (some (longToInteger w z)) z ↔ LengthSurvives w z := by
  rw [returns_iff, longToInteger_eq h1 h2]
  exact iff_of_true rfl (lengthSurvives_of_long h1 h2)

theorem long_returns_iff (h1 : -(w.longLimit : Int) < z) (h2 : z < w.longLimit) :
    Returns w ((w.long z).bind fun r => some (longToInteger w r)) z ↔ LengthSurvives w z := by
  rw [w.long_eq ⟨h1.le, h2⟩]
  exact longToInteger_returns_iff h1 h2

theorem viaBignums_returns_iff {op : Bignum → Bignum → Option Bignum} {r : Int}
    (hop : op (Bignum.ofInt w p) (Bignum.ofInt w q) = some (Bignum.ofInt w r)) :
    Returns w (viaBignums w op (ofInt w p) (ofInt w q)) r ↔ LengthSurvives w r := by
  unfold viaBignums
  simp only [integerToBignum_ofInt, bind_eq_bind, bind_some, hop]
  exact bignumToInteger_returns_iff r

/-- The result `r` of dividing by `q`, when the exact result is `z`. -/
def Divides (w : Word) (r : Option ExactInteger) (q z : Int) : Prop :=
  (q = 0 → r = some sharpF) ∧ (q ≠ 0 → (Returns w r z ↔ LengthSurvives w z))

theorem divideViaBignums_divides {op : Bignum → Bignum → Option (Option Bignum)}
    (hop : op (Bignum.ofInt w p) (Bignum.ofInt w q)
      = if q = 0 then some none else some (some (Bignum.ofInt w z))) :
    Divides w (divideViaBignums w op (ofInt w p) (ofInt w q)) q z := by
  unfold divideViaBignums
  simp only [integerToBignum_ofInt, bind_eq_bind, bind_some, hop]
  constructor
  · intro hq
    rw [if_pos hq]
    rfl
  · intro hq
    rw [if_neg hq]
    exact bignumToInteger_returns_iff z

theorem ofInt_of_inRange (h : InFixnumRange w z) :
    ofInt w z = fixnum (z % (2 ^ w.datumLength : Nat)).toNat := if_pos h

theorem ofInt_of_not_inRange (h : ¬ InFixnumRange w z) :
    ofInt w z = bignum (Bignum.ofInt w z) := if_neg h

theorem fixnums_or_not (p q : Int) :
    (InFixnumRange w p ∧ InFixnumRange w q)
      ∨ (∃ x, ofInt w p = bignum x) ∨ (∃ n x, ofInt w p = fixnum n ∧ ofInt w q = bignum x) := by
  by_cases hp : InFixnumRange w p
  · by_cases hq : InFixnumRange w q
    · exact Or.inl ⟨hp, hq⟩
    · exact Or.inr (Or.inr ⟨_, _, ofInt_of_inRange hp, ofInt_of_not_inRange hq⟩)
  · exact Or.inr (Or.inl ⟨_, ofInt_of_not_inRange hp⟩)

theorem integerNegate_returns_iff (p : Int) :
    Returns w (integerNegate w (ofInt w p)) (-p) ↔ LengthSurvives w (-p) := by
  have hL := longLimit_eq_fixnum (w := w)
  by_cases hp : InFixnumRange w p
  · rw [ofInt_of_inRange hp]
    rw [integerNegate, fixnumToLong_emod hp]
    obtain ⟨h1, h2⟩ := hp
    exact long_returns_iff (by omega) (by omega)
  · rw [ofInt_of_not_inRange hp]
    rw [integerNegate, bignumNegate_ofInt]
    exact bignumToInteger_returns_iff (-p)

theorem integerAdd_returns_iff (p q : Int) :
    Returns w (integerAdd w (ofInt w p) (ofInt w q)) (p + q) ↔ LengthSurvives w (p + q) := by
  have hL := longLimit_eq_fixnum (w := w)
  have hvia := viaBignums_returns_iff (w := w) (bignumAdd_ofInt p q)
  rcases fixnums_or_not (w := w) p q with ⟨hp, hq⟩ | ⟨x, hx⟩ | ⟨n, x, hn, hx⟩
  · rw [ofInt_of_inRange hp, ofInt_of_inRange hq]
    rw [integerAdd, fixnumToLong_emod hp, fixnumToLong_emod hq]
    obtain ⟨hp1, hp2⟩ := hp
    obtain ⟨hq1, hq2⟩ := hq
    exact long_returns_iff (by omega) (by omega)
  · rw [hx] at hvia ⊢
    exact hvia
  · rw [hn, hx] at hvia ⊢
    exact hvia

theorem integerSubtract_returns_iff (p q : Int) :
    Returns w (integerSubtract w (ofInt w p) (ofInt w q)) (p - q)
      ↔ LengthSurvives w (p - q) := by
  have hL := longLimit_eq_fixnum (w := w)
  have hvia := viaBignums_returns_iff (w := w) (bignumSubtract_ofInt p q)
  rcases fixnums_or_not (w := w) p q with ⟨hp, hq⟩ | ⟨x, hx⟩ | ⟨n, x, hn, hx⟩
  · rw [ofInt_of_inRange hp, ofInt_of_inRange hq]
    rw [integerSubtract, fixnumToLong_emod hp, fixnumToLong_emod hq]
    obtain ⟨hp1, hp2⟩ := hp
    obtain ⟨hq1, hq2⟩ := hq
    exact long_returns_iff (by omega) (by omega)
  · rw [hx] at hvia ⊢
    exact hvia
  · rw [hn, hx] at hvia ⊢
    exact hvia

theorem natAbs_mul_lt (hp : InFixnumRange w p) (hq : InFixnumRange w q) :
    (p * q).natAbs < w.radix ^ 2 := by
  have hR := fixnumSignBit_lt_radix (w := w)
  obtain ⟨hp1, hp2⟩ := hp
  obtain ⟨hq1, hq2⟩ := hq
  rw [Int.natAbs_mul, Nat.pow_two]
  exact Nat.mul_lt_mul'' (by omega) (by omega)

theorem integerMultiply_returns_iff (p q : Int) :
    Returns w (integerMultiply w (ofInt w p) (ofInt w q)) (p * q)
      ↔ LengthSurvives w (p * q) := by
  have hvia := viaBignums_returns_iff (w := w) (bignumMultiply_ofInt p q)
  rcases fixnums_or_not (w := w) p q with ⟨hp, hq⟩ | ⟨x, hx⟩ | ⟨n, x, hn, hx⟩
  · rw [ofInt_of_inRange hp, ofInt_of_inRange hq] at hvia ⊢
    rw [integerMultiply]
    rcases mul_spec hp hq with h | h
    · -- `Mul` gave up
      rw [h]
      exact hvia
    · rw [h]
      have hne : ofInt w (p * q) ≠ sharpF := by
        unfold ofInt
        split <;> simp
      simp only [bind_eq_bind, bind_some, if_pos hne]
      rw [returns_iff]
      exact iff_of_true rfl (lengthSurvives_of_lt (natAbs_mul_lt hp hq))
  · rw [hx] at hvia ⊢
    exact hvia
  · rw [hn, hx] at hvia ⊢
    exact hvia

/-! ## Division -/

theorem quotient_cases (p q : Int) :
    (if p < 0 then
        if q < 0 then (((-p).toNat / (-q).toNat : Nat) : Int)
        else -(((-p).toNat / q.toNat : Nat) : Int)
      else
        if q < 0 then -((p.toNat / (-q).toNat : Nat) : Int)
        else ((p.toNat / q.toNat : Nat) : Int)) = p.tdiv q := by
  split
  · obtain ⟨a, rfl⟩ : ∃ a : Nat, p = -a := ⟨p.natAbs, by omega⟩
    split
    · obtain ⟨b, rfl⟩ : ∃ b : Nat, q = -b := ⟨q.natAbs, by omega⟩
      simp [Int.neg_tdiv, Int.tdiv_neg]
    · obtain ⟨b, rfl⟩ : ∃ b : Nat, q = b := ⟨q.natAbs, by omega⟩
      simp [Int.neg_tdiv]
  · obtain ⟨a, rfl⟩ : ∃ a : Nat, p = a := ⟨p.natAbs, by omega⟩
    split
    · obtain ⟨b, rfl⟩ : ∃ b : Nat, q = -b := ⟨q.natAbs, by omega⟩
      simp [Int.tdiv_neg]
    · obtain ⟨b, rfl⟩ : ∃ b : Nat, q = b := ⟨q.natAbs, by omega⟩
      simp

theorem remainder_cases (p q : Int) :
    (if p < 0 then -(((-p).toNat % (if q < 0 then (-q).toNat else q.toNat) : Nat) : Int)
      else ((p.toNat % (if q < 0 then (-q).toNat else q.toNat) : Nat) : Int)) = p.tmod q := by
  have habs : (if q < 0 then (-q).toNat else q.toNat) = q.natAbs := by
    split <;> omega
  rw [habs]
  have hq : p.tmod q = p.tmod (q.natAbs : Int) := by
    rcases Int.natAbs_eq q with h | h
    · exact congrArg p.tmod h
    · conv_lhs => rw [h, Int.tmod_neg]
  rw [hq]
  split
  · obtain ⟨a, rfl⟩ : ∃ a : Nat, p = -a := ⟨p.natAbs, by omega⟩
    rw [Int.neg_tmod, ← Int.ofNat_tmod, Int.neg_neg, Int.toNat_natCast]
  · obtain ⟨a, rfl⟩ : ∃ a : Nat, p = a := ⟨p.natAbs, by omega⟩
    rw [← Int.ofNat_tmod, Int.toNat_natCast]

theorem natAbs_tdiv_le (p q : Int) : (p.tdiv q).natAbs ≤ p.natAbs := by
  rw [Int.natAbs_tdiv]
  exact Nat.div_le_self _ _

theorem natAbs_tmod_le (p q : Int) : (p.tmod q).natAbs ≤ p.natAbs := by
  rw [Int.natAbs_tmod]
  exact Nat.mod_le _ _

theorem long_of_natAbs_le (hp : InFixnumRange w p) (h : z.natAbs ≤ p.natAbs) :
    -(w.longLimit : Int) < z ∧ z < w.longLimit := by
  have := inRange_long hp
  omega

theorem integerQuotient_divides (p q : Int) :
    Divides w (integerQuotient w (ofInt w p) (ofInt w q)) q (p.tdiv q) := by
  have hvia := divideViaBignums_divides (w := w) (bignumQuotient_ofInt p q)
  rcases fixnums_or_not (w := w) p q with ⟨hp, hq⟩ | ⟨x, hx⟩ | ⟨n, x, hn, hx⟩
  · rw [ofInt_of_inRange hp, ofInt_of_inRange hq]
    simp only [integerQuotient, fixnumToLong_emod hp, fixnumToLong_emod hq, quotient_cases]
    have hl := long_of_natAbs_le hp (natAbs_tdiv_le p q)
    refine ⟨fun h => if_pos h, fun h => ?_⟩
    rw [if_neg h]
    exact longToInteger_returns_iff hl.1 hl.2
  · rw [hx] at hvia ⊢
    exact hvia
  · rw [hn, hx] at hvia ⊢
    exact hvia

theorem integerRemainder_divides (p q : Int) :
    Divides w (integerRemainder w (ofInt w p) (ofInt w q)) q (p.tmod q) := by
  have hvia := divideViaBignums_divides (w := w) (bignumRemainder_ofInt p q)
  rcases fixnums_or_not (w := w) p q with ⟨hp, hq⟩ | ⟨x, hx⟩ | ⟨n, x, hn, hx⟩
  · rw [ofInt_of_inRange hp, ofInt_of_inRange hq]
    simp only [integerRemainder, fixnumToLong_emod hp, fixnumToLong_emod hq, remainder_cases]
    have hl := long_of_natAbs_le hp (natAbs_tmod_le p q)
    refine ⟨fun h => if_pos h, fun h => ?_⟩
    rw [if_neg h]
    exact longToInteger_returns_iff hl.1 hl.2
  · rw [hx] at hvia ⊢
    exact hvia
  · rw [hn, hx] at hvia ⊢
    exact hvia

/-! ## All six -/

/-- **Exact integer arithmetic** on the operands `a` and `b`: every operation returns the
canonical object of the exact result, and the divisions report failure when the divisor
is zero and then only. -/
structure ExactArithmetic (w : Word) (a b : ExactInteger) : Prop where
  negate : Returns w (integerNegate w a) (-(a.value w))
  add : Returns w (integerAdd w a b) (a.value w + b.value w)
  subtract : Returns w (integerSubtract w a b) (a.value w - b.value w)
  multiply : Returns w (integerMultiply w a b) (a.value w * b.value w)
  quotient_fails : integerQuotient w a b = some sharpF ↔ b.value w = 0
  quotient : b.value w ≠ 0 → Returns w (integerQuotient w a b) ((a.value w).tdiv (b.value w))
  remainder_fails : integerRemainder w a b = some sharpF ↔ b.value w = 0
  remainder : b.value w ≠ 0 → Returns w (integerRemainder w a b) ((a.value w).tmod (b.value w))

/-- The exact results for `p` and `q` all have a length that survives the cast. -/
structure LengthsSurvive (w : Word) (p q : Int) : Prop where
  negate : LengthSurvives w (-p)
  add : LengthSurvives w (p + q)
  subtract : LengthSurvives w (p - q)
  multiply : LengthSurvives w (p * q)
  quotient : q ≠ 0 → LengthSurvives w (p.tdiv q)
  remainder : q ≠ 0 → LengthSurvives w (p.tmod q)

theorem returns_ne_sharpF {r : Option ExactInteger} (h : Returns w r z) : r ≠ some sharpF := by
  obtain ⟨object, rfl, hc, -⟩ := h
  intro he
  injection he with he
  rw [he] at hc
  exact hc

theorem Divides.fails_iff {r : Option ExactInteger} (h : Divides w r q z)
    (hs : q ≠ 0 → LengthSurvives w z) : r = some sharpF ↔ q = 0 := by
  constructor
  · intro hr
    by_contra hq
    exact returns_ne_sharpF ((h.2 hq).mpr (hs hq)) hr
  · exact h.1

theorem exactArithmetic_ofInt (p q : Int) :
    ExactArithmetic w (ofInt w p) (ofInt w q) ↔ LengthsSurvive w p q := by
  have hquo := integerQuotient_divides (w := w) p q
  have hrem := integerRemainder_divides (w := w) p q
  constructor
  · intro h
    have h1 := h.negate
    have h2 := h.add
    have h3 := h.subtract
    have h4 := h.multiply
    have h5 := h.quotient
    have h6 := h.remainder
    simp only [value_ofInt] at h1 h2 h3 h4 h5 h6
    exact ⟨(integerNegate_returns_iff p).mp h1, (integerAdd_returns_iff p q).mp h2,
      (integerSubtract_returns_iff p q).mp h3, (integerMultiply_returns_iff p q).mp h4,
      fun h => (hquo.2 h).mp (h5 h), fun h => (hrem.2 h).mp (h6 h)⟩
  · rintro ⟨h1, h2, h3, h4, h5, h6⟩
    constructor <;> simp only [value_ofInt]
    · exact (integerNegate_returns_iff p).mpr h1
    · exact (integerAdd_returns_iff p q).mpr h2
    · exact (integerSubtract_returns_iff p q).mpr h3
    · exact (integerMultiply_returns_iff p q).mpr h4
    · exact hquo.fails_iff h5
    · exact fun h => (hquo.2 h).mpr (h5 h)
    · exact hrem.fails_iff h6
    · exact fun h => (hrem.2 h).mpr (h6 h)

/-- **Exact integer arithmetic, exactly when it is exact.** On canonical operands the six
operations are exact if and only if no result has a length that the cast to
`unsigned int` in `bignum_fits_in_word_p` turns into zero or one. -/
theorem exactArithmetic_iff {a b : ExactInteger} (ha : a.Canonical w) (hb : b.Canonical w) :
    ExactArithmetic w a b ↔ LengthsSurvive w (a.value w) (b.value w) := by
  have hp := canonical_iff.mp ⟨ha, rfl⟩
  have hq := canonical_iff.mp ⟨hb, rfl⟩
  have h := exactArithmetic_ofInt (w := w) (a.value w) (b.value w)
  rw [← hp, ← hq] at h
  exact h

theorem exactArithmetic_bignum_fixnum :
    ExactArithmetic w64 (ofInt w64 (2 ^ 100)) (ofInt w64 (-3)) := by
  refine (exactArithmetic_iff (canonical_ofInt _) (canonical_ofInt _)).mpr ?_
  constructor
  · exact lengthSurvives_of_lt (by decide)
  · exact lengthSurvives_of_lt (by decide)
  · exact lengthSurvives_of_lt (by decide)
  · exact lengthSurvives_of_lt (by decide)
  · exact fun _ => lengthSurvives_of_lt (by decide)
  · exact fun _ => lengthSurvives_of_lt (by decide)

/-- The radix to the power `n`: `n` zeros below a one. -/
def radixPower (n : Nat) : Bignum := ⟨false, List.replicate n 0 ++ [1]⟩

theorem radixPower_below (n : Nat) : ∀ d ∈ (radixPower n).digits, d < w.radix := by
  intro d hd
  have hR := w.one_lt_radix
  rcases List.mem_append.mp hd with h | h
  · rw [List.eq_of_mem_replicate h]
    omega
  · rw [List.mem_singleton.mp h]
    exact hR

theorem digitCount_radixPower (n : Nat) : digitCount w ((radixPower n).toInt w) = n + 1 := by
  have hds := eq_digits w.one_lt_radix (radixPower_below (w := w) n)
    (fun h => by simp [radixPower])
  change (Nat.digits w.radix (Int.natAbs (w.value (radixPower n).digits))).length = n + 1
  change (Nat.digits w.radix (Nat.ofDigits w.radix (radixPower n).digits)).length = n + 1
  rw [← hds]
  simp [radixPower]

theorem canonical_radixPower {n : Nat} (h : 0 < n) :
    (bignum (radixPower n)).Canonical w := by
  refine ⟨radixPower_below n, ⟨by simp [radixPower], by simp [radixPower]⟩, ?_⟩
  exact not_inRange_of_two_le (by rw [digitCount_radixPower]; omega)

/-- **Adding zero to the radix to the power `2 ^ 32 - 1` is not exact.** The sum has `2 ^ 32`
digits, which `bignum_fits_in_word_p` takes for none. -/
theorem not_exactArithmetic_radixPower :
    (bignum (radixPower (2 ^ 32 - 1))).Canonical w64 ∧ (fixnum 0).Canonical w64
      ∧ ¬ ExactArithmetic w64 (bignum (radixPower (2 ^ 32 - 1))) (fixnum 0) := by
  have ha : (bignum (radixPower (2 ^ 32 - 1))).Canonical w64 := canonical_radixPower (by decide)
  have hb : (fixnum 0).Canonical w64 := Nat.two_pow_pos _
  refine ⟨ha, hb, ?_⟩
  have hp := canonical_iff.mp ⟨ha, rfl⟩
  have hq := canonical_iff.mp ⟨hb, rfl⟩
  intro h
  have hadd := h.add
  have hzero : (fixnum 0).value w64 = 0 := by decide
  rw [hzero] at hq hadd
  rw [Int.add_zero] at hadd
  have hiff := integerAdd_returns_iff (w := w64)
    ((bignum (radixPower (2 ^ 32 - 1))).value w64) 0
  rw [← hp, Int.add_zero] at hiff
  have hcount : digitCount w64 ((bignum (radixPower (2 ^ 32 - 1))).value w64) = uintLimit := by
    change digitCount w64 ((radixPower (2 ^ 32 - 1)).toInt w64) = uintLimit
    rw [digitCount_radixPower]
    rfl
  refine not_lengthSurvives hcount.ge ?_ (hiff.mp hadd)
  rw [hcount, Nat.mod_self]
  omega

end MitScheme
