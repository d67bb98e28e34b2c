import MitScheme.Microcode.IntegerWordsProof

/-!
# From an integer to a machine word and back

What a conversion returns is in the range of its type, and from there the way back is exact. So an
integer that is accepted comes back if and only if it is in the range, the most negative number
aside: its magnitude is negated as a number of the type, which overflows.
-/

namespace MitScheme

open DigitList ExactInteger
open Bignum hiding ofInt

variable {w : Word}

/-! ## Conversions of bignums -/

theorem digitsToUint_eq (bits : Nat) (ds : List Nat) :
    digitsToUint w bits ds = w.value ds % 2 ^ bits := by
  induction ds with
  | nil => simp [digitsToUint]
  | cons d ds ih =>
      rw [digitsToUint, ih, Nat.shiftLeft_eq, Nat.add_mod, Nat.mod_mul_mod,
        ← Nat.add_mod, Nat.add_comm, Nat.mul_comm]
      rfl

theorem bignumToUlong_eq (ds : List Nat) :
    bignumToUlong w ds = digitsToUint w w.objectLength ds := by
  induction ds with
  | nil => rfl
  | cons d ds ih => rw [bignumToUlong, digitsToUint, ih]

theorem bignumToLong_eq (x : Bignum) : bignumToLong w x = bignumToInt w w.objectLength x := by
  unfold bignumToLong bignumToInt
  rw [bignumToUlong_eq]
  rfl

variable {bits n : Nat} {z m : Int}

theorem signedWord_eq {x : Int} (h1 : -((2 ^ (bits - 1) : Nat) : Int) ≤ x)
    (h2 : x < (2 ^ (bits - 1) : Nat)) : signedWord bits x = some x := if_pos ⟨h1, h2⟩

theorem two_pow_pred (h : 0 < bits) : 2 ^ bits = 2 * 2 ^ (bits - 1) := by
  rw [← Nat.pow_succ', Nat.succ_eq_add_one, Nat.sub_add_cancel h]

theorem digitsToUint_ofInt (h : z.natAbs < 2 ^ bits) :
    digitsToUint w bits (Bignum.ofInt w z).digits = z.natAbs := by
  rw [digitsToUint_eq]
  change w.value (Nat.digits w.radix z.natAbs) % 2 ^ bits = z.natAbs
  rw [value_digits, Nat.mod_eq_of_lt h]

theorem bignumToInt_ofInt (hbits : 0 < bits)
    (h : z.natAbs < 2 ^ (bits - 1)) : bignumToInt w bits (Bignum.ofInt w z) = some z := by
  have hpow := two_pow_pred hbits
  unfold bignumToInt
  rw [digitsToUint_ofInt (by omega), zeroP_ofInt, toSigned, if_pos h]
  change (if decide (z = 0) = true then _ else if decide (z < 0) = true then _ else _) = _
  rcases lt_trichotomy z 0 with hz | hz | hz
  · rw [if_neg (by simp; omega), if_pos (by simpa using hz), signedWord_eq (by omega) (by omega)]
    congr 1
    omega
  · rw [if_pos (by simpa using hz), hz]
  · rw [if_neg (by simp; omega), if_neg (by simp; omega)]
    congr 1
    omega

theorem bignumToInt_min (hbits : 0 < bits)
    (h : z = -((2 ^ (bits - 1) : Nat) : Int)) : bignumToInt w bits (Bignum.ofInt w z) = none := by
  have hpow := two_pow_pred hbits
  have hpos := Nat.two_pow_pos (bits - 1)
  have habs : z.natAbs = 2 ^ (bits - 1) := by rw [h, Int.natAbs_neg, Int.natAbs_natCast]
  unfold bignumToInt
  rw [digitsToUint_ofInt (by omega), zeroP_ofInt, toSigned, habs]
  change (if decide (z = 0) = true then _ else if decide (z < 0) = true then _ else _) = _
  rw [if_neg (by simp; omega), if_pos (by simp; omega)]
  exact if_neg (by omega)

theorem bignumToInt_range {x : Bignum} (hbits : 0 < bits) (h : bignumToInt w bits x = some m) :
    -((2 ^ (bits - 1) : Nat) : Int) ≤ m ∧ m < (2 ^ (bits - 1) : Nat) := by
  have hpow := two_pow_pred hbits
  have hlt : digitsToUint w bits x.digits < 2 ^ bits := by
    rw [digitsToUint_eq]
    exact Nat.mod_lt _ (Nat.two_pow_pos _)
  unfold bignumToInt toSigned at h
  unfold signedWord at h
  dsimp only at h
  split_ifs at h <;> injection h <;> omega

theorem longDigits_bits (hpos : 0 < n) (hlt : n < 2 ^ bits) (hbits : 0 < bits) :
    longDigits w (w.bitsToDigits bits) n = Nat.digits w.radix n := by
  refine longDigits_eq hpos (hlt.trans_le ?_)
  rw [radix_pow]
  exact Nat.pow_le_pow_right (by decide) (bitsToDigits_spec hbits).2.2

theorem digits_one : Nat.digits w.radix 1 = [1] :=
  Nat.digits_of_lt w.radix 1 (by decide) w.one_lt_radix

theorem intToBignum_eq {n : Int} (hbits : 0 < bits)
    (h : n.natAbs < 2 ^ (bits - 1)) : intToBignum w bits n = some (Bignum.ofInt w n) := by
  have hpow := two_pow_pred hbits
  unfold intToBignum
  split
  · rename_i hn
    rw [hn, ofInt_zero]
  split
  · rename_i hn
    simp [hn, makeOne, Bignum.ofInt, digits_one]
  split
  · rename_i hn
    simp [hn, makeOne, Bignum.ofInt, digits_one]
  have hacc : (if n < 0 then signedWord bits (-n) else some n) = some (n.natAbs : Int) := by
    split
    · rw [signedWord_eq (by omega) (by omega)]
      congr 1
      omega
    · congr 1
      omega
  rw [hacc, Option.bind_eq_bind, Option.bind_some, longDigits_bits (by omega) (by omega) hbits]
  rfl

theorem intToBignum_min {n : Int} (hbits : 1 < bits)
    (h : n = -((2 ^ (bits - 1) : Nat) : Int)) : intToBignum w bits n = none := by
  have htwo : 2 ^ 1 ≤ 2 ^ (bits - 1) := Nat.pow_le_pow_right (by decide) (by omega)
  unfold intToBignum
  rw [if_neg (by omega), if_neg (by omega), if_neg (by omega), if_pos (by omega), signedWord,
    if_neg (by omega)]
  rfl

theorem bignumToUint_ofInt (hz : 0 ≤ z) (h : z < (2 ^ bits : Nat)) :
    bignumToUint w bits (Bignum.ofInt w z) = some z.toNat := by
  have hsign : (Bignum.ofInt w z).negative = false := decide_eq_false (by omega)
  unfold bignumToUint
  rw [digitsToUint_ofInt (by omega), zeroP_ofInt, hsign]
  split
  · rename_i h0
    rw [of_decide_eq_true h0]
    rfl
  · simp only [guard, ↓reduceIte, Option.pure_def, Option.bind_eq_bind, Option.bind_some]
    congr 1
    omega

theorem bignumToUint_range {x : Bignum} {m : Nat} (h : bignumToUint w bits x = some m) :
    m < 2 ^ bits := by
  unfold bignumToUint at h
  split at h
  · injection h with h
    rw [← h]
    exact Nat.two_pow_pos _
  · simp only [guard, Option.bind_eq_bind] at h
    split at h
    · injection h with h
      rw [← h, digitsToUint_eq]
      exact Nat.mod_lt _ (Nat.two_pow_pos _)
    · cases h

theorem uintToBignum_eq (hbits : 0 < bits) (h : n < 2 ^ bits) :
    uintToBignum w bits n = Bignum.ofInt w n := by
  unfold uintToBignum
  split
  · rename_i hn
    rw [hn]
    exact ofInt_zero.symm
  split
  · rename_i hn
    simp [hn, makeOne, Bignum.ofInt, digits_one]
  rw [longDigits_bits (by omega) h hbits]
  unfold Bignum.ofInt
  rw [decide_eq_false (by omega), Int.natAbs_natCast]

theorem one_lt_objectLength : 1 < w.objectLength := by
  unfold Word.objectLength Word.digitLength
  omega

theorem objectLength_le_intmaxLength : w.objectLength ≤ w.intmaxLength := Nat.le_max_right _ _

theorem longLimit_le_intmax : w.longLimit ≤ 2 ^ (w.intmaxLength - 1) := by
  have := objectLength_le_intmaxLength (w := w)
  exact Nat.pow_le_pow_right (by decide) (by omega)

theorem not_dvd_objectLength : ¬ w.digitLength ∣ w.objectLength - 1 := by
  intro h
  have h2 : 2 ∣ w.objectLength - 1 := Dvd.dvd.trans ⟨w.half, rfl⟩ h
  unfold Word.objectLength Word.digitLength at h2
  omega

theorem not_dvd_intmaxLength : ¬ w.digitLength ∣ w.intmaxLength - 1 := by
  intro h
  have h2 : 2 ∣ w.intmaxLength - 1 := Dvd.dvd.trans ⟨w.half, rfl⟩ h
  unfold Word.intmaxLength Word.objectLength Word.digitLength at h2
  omega

/-! ## The way back -/

theorem longToIntegerChecked_eq (h1 : -(w.longLimit : Int) ≤ m) (h2 : m < w.longLimit) :
    longToIntegerChecked w m
      = if m = -(w.longLimit : Int) then none else some (ofInt w m) := by
  unfold longToIntegerChecked
  split
  · rw [Word.long, if_neg (by omega)]
    rfl
  · rw [w.long_eq (by omega), longToInteger_eq (by omega) h2]
    rfl

theorem not_inRange_of_le (h : m < -(w.longLimit : Int) ∨ (w.longLimit : Int) ≤ m) :
    ¬ InFixnumRange w m := by
  intro hr
  have := inRange_long hr
  omega

theorem intmaxToInteger_eq (h1 : -((2 ^ (w.intmaxLength - 1) : Nat) : Int) ≤ m)
    (h2 : m < (2 ^ (w.intmaxLength - 1) : Nat)) :
    intmaxToInteger w m
      = if m = -(w.longLimit : Int) ∨ m = -((2 ^ (w.intmaxLength - 1) : Nat) : Int) then none
        else some (ofInt w m) := by
  have hlimit := longLimit_le_intmax (w := w)
  have hbits : 1 < w.intmaxLength := one_lt_objectLength.trans_le objectLength_le_intmaxLength
  unfold intmaxToInteger
  by_cases hlong : -(w.longLimit : Int) ≤ m ∧ m < w.longLimit
  · rw [if_pos hlong, longToIntegerChecked_eq hlong.1 hlong.2]
    by_cases hm : m = -(w.longLimit : Int)
    · rw [if_pos hm, if_pos (Or.inl hm)]
    · rw [if_neg hm, if_neg (by omega)]
  · rw [if_neg hlong]
    unfold intmaxToBignum
    by_cases hm : m = -((2 ^ (w.intmaxLength - 1) : Nat) : Int)
    · rw [intToBignum_min hbits hm, if_pos (Or.inr hm)]
      rfl
    · have habs : m.natAbs < 2 ^ (w.intmaxLength - 1) := by omega
      have hpos : 0 < w.longLimit := Nat.two_pow_pos _
      rw [intToBignum_eq (by omega) habs, if_neg (by omega),
        ofInt_of_not_inRange (not_inRange_of_le (by omega))]
      rfl

theorem ulongToInteger_eq {m : Nat} (h : m < 2 ^ w.objectLength) :
    ulongToInteger w m = ofInt w m := by
  unfold ulongToInteger Word.toLong
  by_cases hlong : m < w.longLimit
  · rw [if_pos hlong]
    exact longToInteger_eq (by omega) (by omega)
  · rw [if_neg (by omega), ofInt_of_not_inRange (not_inRange_of_le (by omega)), ulongToBignum,
      uintToBignum_eq (by have := one_lt_objectLength (w := w); omega) h]

theorem uintmaxToInteger_eq {m : Nat} (h : m < 2 ^ w.intmaxLength) :
    uintmaxToInteger w m = ofInt w m := by
  unfold uintmaxToInteger
  split
  · rename_i hlong
    exact ulongToInteger_eq hlong
  · have hpow : 2 ^ w.objectLength = 2 * w.longLimit :=
      two_pow_pred (by have := one_lt_objectLength (w := w); omega)
    have hbits := one_lt_objectLength.trans_le (objectLength_le_intmaxLength (w := w))
    rw [ofInt_of_not_inRange (not_inRange_of_le (by omega)), uintmaxToBignum,
      uintToBignum_eq (by omega) h]

/-! ## Round trips -/

/-- **The round trip of an integer**: it is refused, or it is accepted and comes back. -/
def RoundTrips {α : Type} (accepted : Option Bool) (converted : Option α)
    (back : α → Option ExactInteger) (n : ExactInteger) : Prop :=
  accepted = some false ∨ (accepted = some true ∧ ∃ m, converted = some m ∧ back m = some n)

variable (w) in
/-- **When the round trip through a signed type is exact.** -/
def SignedTrip (bits : Nat) (z : Int) : Prop :=
  LengthTold w (w.bitsToDigits (bits - 1)) z
    ∧ ¬ (-((2 ^ (bits - 1) + w.radix ^ (w.bitsToDigits (bits - 1) - 1) : Nat) : Int) < z
      ∧ z ≤ -((2 ^ (bits - 1) : Nat) : Int))
    ∧ z ≠ -(w.longLimit : Int)

variable (w) in
/-- **When the round trip through an unsigned type is exact.** -/
def UnsignedTrip (bits : Nat) (z : Int) : Prop :=
  z < 0 ∨ LengthTold w (w.bitsToDigits bits) z

theorem lengthTold_of_lt (hn : n < uintLimit) (h : z.natAbs < 2 ^ (n + 1)) (digits : Nat) :
    LengthTold w digits z := by
  refine Or.inl ?_
  by_contra hlong
  have := two_pow_succ_le_of_long (w := w) hn (not_lt.mp hlong)
  omega

theorem ofInt_injective {a b : Int} (h : ofInt w a = ofInt w b) : a = b := by
  rw [← value_ofInt (w := w) a, h, value_ofInt]

theorem signed_roundTrips {back : Int → Option ExactInteger}
    (hbits : 1 < bits) (hU : bits - 1 < uintLimit) (hdvd : ¬ w.digitLength ∣ bits - 1)
    (hlimit : w.longLimit ≤ 2 ^ (bits - 1))
    (hback : ∀ m : Int, -((2 ^ (bits - 1) : Nat) : Int) ≤ m → m < (2 ^ (bits - 1) : Nat) →
      back m = if m = -(w.longLimit : Int) ∨ m = -((2 ^ (bits - 1) : Nat) : Int) then none
        else some (ofInt w m)) :
    RoundTrips (bignumFitsInWordP w (Bignum.ofInt w z) bits true)
        (bignumToInt w bits (Bignum.ofInt w z)) back (ofInt w z)
      ↔ SignedTrip w bits z := by
  have hexact : bignumFitsInWordP w (Bignum.ofInt w z) bits true = some (decide (InWord bits true z))
      ↔ TestExact w bits true z := bignumFitsInWordP_exact hU
  have hpos := Nat.two_pow_pos (bits - 1)
  have hR : 0 < w.radix ^ (w.bitsToDigits (bits - 1) - 1) := Nat.pow_pos w.radix_pos
  have hn : 0 < magnitudeBits bits true := by
    change 0 < bits - 1
    omega
  have htest : TestExact w bits true z
      ↔ LengthTold w (w.bitsToDigits (bits - 1)) z
        ∧ ¬ (-((2 ^ (bits - 1) + w.radix ^ (w.bitsToDigits (bits - 1) - 1) : Nat) : Int) < z
          ∧ z < -((2 ^ (bits - 1) : Nat) : Int)) := by
    unfold TestExact Misjudged
    simp only [Bool.true_eq_false, false_and, false_or, hn, true_and, forall_const]
    rw [show magnitudeBits bits true = bits - 1 from rfl, if_neg hdvd]
  by_cases hin : InWord bits true z
  · have hrange : -((2 ^ (bits - 1) : Nat) : Int) ≤ z ∧ z < (2 ^ (bits - 1) : Nat) := hin
    obtain ⟨h1, h2⟩ := hrange
    have htold := lengthTold_of_lt (w := w) hU (z := z)
      (by omega) (w.bitsToDigits (bits - 1))
    rw [decide_eq_true hin] at hexact
    have htrue := hexact.mpr (htest.mpr ⟨htold, by omega⟩)
    unfold SignedTrip RoundTrips
    rw [htrue]
    by_cases hmin : z = -((2 ^ (bits - 1) : Nat) : Int)
    · rw [bignumToInt_min (by omega) hmin]
      refine iff_of_false ?_ (by omega)
      rintro (h | ⟨-, m, hm, -⟩)
      · cases h
      · cases hm
    · rw [bignumToInt_ofInt (by omega) (by omega)]
      have hb := hback z h1 h2
      constructor
      · rintro (h | ⟨-, m, hm, hm'⟩)
        · cases h
        · injection hm with hm
          rw [← hm, hb] at hm'
          refine ⟨htold, by omega, fun hz => ?_⟩
          rw [if_pos (Or.inl hz)] at hm'
          cases hm'
      · rintro ⟨-, -, hz⟩
        rw [if_neg (by omega)] at hb
        exact Or.inr ⟨rfl, z, rfl, hb⟩
  · -- out of range, only a refusal will do
    have hout : ¬ (-((2 ^ (bits - 1) : Nat) : Int) ≤ z ∧ z < (2 ^ (bits - 1) : Nat)) := hin
    rw [decide_eq_false hin, htest] at hexact
    have hrefused : RoundTrips (bignumFitsInWordP w (Bignum.ofInt w z) bits true)
        (bignumToInt w bits (Bignum.ofInt w z)) back (ofInt w z)
          ↔ bignumFitsInWordP w (Bignum.ofInt w z) bits true = some false := by
      refine ⟨?_, Or.inl⟩
      rintro (h | ⟨-, m, hm, hm'⟩)
      · exact h
      · have hr := bignumToInt_range (by omega) hm
        rw [hback m hr.1 hr.2] at hm'
        split at hm'
        · cases hm'
        · injection hm' with hm'
          exact absurd (ofInt_injective hm' ▸ hr) hout
    rw [hrefused, hexact]
    unfold SignedTrip
    constructor
    · intro h
      exact ⟨h.1, by omega, by omega⟩
    · intro h
      exact ⟨h.1, by omega⟩

theorem unsigned_roundTrips {back : Nat → ExactInteger}
    (hbits : 0 < bits) (hU : bits < uintLimit) (hback : ∀ m < 2 ^ bits, back m = ofInt w m) :
    RoundTrips (bignumFitsInWordP w (Bignum.ofInt w z) bits false)
        (bignumToUint w bits (Bignum.ofInt w z)) (fun m => some (back m)) (ofInt w z)
      ↔ UnsignedTrip w bits z := by
  have hexact : bignumFitsInWordP w (Bignum.ofInt w z) bits false = some (decide (InWord bits false z))
      ↔ TestExact w bits false z := bignumFitsInWordP_exact hU
  have htest : TestExact w bits false z ↔ UnsignedTrip w bits z := by
    have hn : 0 < magnitudeBits bits false := hbits
    unfold TestExact UnsignedTrip
    simp only [hn, true_and, Bool.false_eq_true, false_implies, and_true]
    rfl
  rw [htest] at hexact
  by_cases hin : InWord bits false z
  · have hrange : 0 ≤ z ∧ z < (2 ^ bits : Nat) := hin
    have htold := lengthTold_of_lt (w := w) hU (z := z)
      (by omega) (w.bitsToDigits bits)
    rw [decide_eq_true hin] at hexact
    refine iff_of_true (Or.inr ⟨hexact.mpr (Or.inr htold), z.toNat, ?_, ?_⟩) (Or.inr htold)
    · exact bignumToUint_ofInt hrange.1 hrange.2
    · change some (back z.toNat) = _
      have hlt : z.toNat < 2 ^ bits := by omega
      rw [hback _ hlt, Int.toNat_of_nonneg hrange.1]
  · rw [decide_eq_false hin] at hexact
    rw [← hexact]
    refine ⟨?_, Or.inl⟩
    rintro (h | ⟨-, m, hm, hm'⟩)
    · exact h
    · -- out of range, only a refusal will do
      have hlt := bignumToUint_range hm
      injection hm' with hm'
      rw [hback m hlt] at hm'
      have hz := ofInt_injective hm'
      exact absurd (show 0 ≤ z ∧ z < (2 ^ bits : Nat) by omega) hin

theorem fixnumNegativeP_eq (h : InFixnumRange w z) :
    fixnumNegativeP w (z % (2 ^ w.datumLength : Nat)).toNat = decide (z < 0) := by
  have hD := two_pow_datumLength (w := w)
  rw [emod_datum h]
  obtain ⟨h1, h2⟩ := h
  unfold fixnumNegativeP
  rw [Nat.and_comm]
  change ((2 ^ w.fixnumLength &&& _) != 0) = _
  rw [Nat.two_pow_and]
  split
  · rw [Nat.testBit_lt_two_pow (show z.toNat < 2 ^ w.fixnumLength by
      unfold Word.fixnumSignBit at h2; omega), decide_eq_false (by omega)]
    rfl
  · obtain ⟨e, he⟩ : ∃ e, (z + (2 ^ w.datumLength : Nat)).toNat = 2 ^ w.fixnumLength + e := by
      refine Nat.exists_eq_add_of_le ?_
      unfold Word.fixnumSignBit at *
      omega
    have helt : e < 2 ^ w.fixnumLength := by
      unfold Word.fixnumSignBit at *
      omega
    rw [he, Nat.testBit_two_pow_add_eq, Nat.testBit_lt_two_pow helt, decide_eq_true (by omega)]
    simp

theorem lengthTold_of_inRange (h : InFixnumRange w z) (digits : Nat) : LengthTold w digits z := by
  have := digitCount_le_one_of_inRange h
  exact Or.inl (by unfold uintLimit; omega)

theorem signed_fixnum (bits : Nat) {back : Int → Option ExactInteger}
    (h : InFixnumRange w z) (hlimit : w.longLimit ≤ 2 ^ (bits - 1))
    (hback : back z = some (ofInt w z)) :
    RoundTrips (some true) (some z) back (ofInt w z) ↔ SignedTrip w bits z := by
  have hlong := inRange_long h
  exact iff_of_true (Or.inr ⟨rfl, z, rfl, hback⟩)
    ⟨lengthTold_of_inRange h _, by omega, by omega⟩

theorem unsigned_fixnum (bits : Nat) (back : Nat → ExactInteger) (converted : Option Nat)
    (h : InFixnumRange w z)
    (hconverted : 0 ≤ z → converted = some z.toNat ∧ back z.toNat = ofInt w z) :
    RoundTrips (some (!decide (z < 0))) converted (fun m => some (back m)) (ofInt w z)
      ↔ UnsignedTrip w bits z := by
  refine iff_of_true ?_ (Or.inr (lengthTold_of_inRange h _))
  by_cases hz : z < 0
  · exact Or.inl (by simp [hz])
  · obtain ⟨h1, h2⟩ := hconverted (by omega)
    exact Or.inr ⟨by simp [hz], _, h1, congrArg some h2⟩

/-! ## The four types -/

theorem objectLength_lt (hw : w.intmaxLength < uintLimit) : w.objectLength < uintLimit :=
  Nat.lt_of_le_of_lt objectLength_le_intmaxLength hw

theorem long_roundTrips (hw : w.intmaxLength < uintLimit) (z : Int) :
    RoundTrips (integerToLongP w (ofInt w z)) (integerToLong w (ofInt w z))
      (longToIntegerChecked w) (ofInt w z) ↔ SignedTrip w w.objectLength z := by
  have hlt := objectLength_lt hw
  by_cases h : InFixnumRange w z
  · have hlong := inRange_long h
    have hback : longToIntegerChecked w z = some (ofInt w z) := by
      rw [longToIntegerChecked_eq (by omega) hlong.2, if_neg (by omega)]
    have := signed_fixnum w.objectLength h le_rfl hback
    rw [ofInt_of_inRange h] at this ⊢
    rw [integerToLong, fixnumToLong_emod h]
    exact this
  · have := signed_roundTrips (w := w) (z := z) one_lt_objectLength (by omega)
      not_dvd_objectLength le_rfl fun m h1 h2 => (longToIntegerChecked_eq h1 h2).trans
        (if_congr (or_self_iff.symm.trans Iff.rfl) rfl rfl)
    rw [ofInt_of_not_inRange h] at this ⊢
    rw [integerToLong, bignumToLong_eq]
    exact this

theorem intmax_roundTrips (hw : w.intmaxLength < uintLimit) (z : Int) :
    RoundTrips (integerToIntmaxP w (ofInt w z)) (integerToIntmax w (ofInt w z))
      (intmaxToInteger w) (ofInt w z) ↔ SignedTrip w w.intmaxLength z := by
  have hlimit := longLimit_le_intmax (w := w)
  have hbits := one_lt_objectLength.trans_le (objectLength_le_intmaxLength (w := w))
  by_cases h : InFixnumRange w z
  · have hlong := inRange_long h
    have hback : intmaxToInteger w z = some (ofInt w z) := by
      rw [intmaxToInteger_eq (by omega) (by omega), if_neg (by omega)]
    have := signed_fixnum w.intmaxLength h hlimit hback
    rw [ofInt_of_inRange h] at this ⊢
    rw [integerToIntmax, fixnumToLong_emod h]
    exact this
  · have := signed_roundTrips (z := z) hbits (by omega) not_dvd_intmaxLength hlimit
      fun m h1 h2 => intmaxToInteger_eq h1 h2
    rw [ofInt_of_not_inRange h] at this ⊢
    exact this

theorem ulong_roundTrips (hw : w.intmaxLength < uintLimit) (z : Int) :
    RoundTrips (integerToUlongP w (ofInt w z)) (integerToUlong w (ofInt w z))
      (fun m => some (ulongToInteger w m)) (ofInt w z) ↔ UnsignedTrip w w.objectLength z := by
  have hbits := one_lt_objectLength (w := w)
  by_cases h : InFixnumRange w z
  · have hlong := inRange_long h
    have hpow : 2 ^ w.objectLength = 2 * w.longLimit := two_pow_pred (by omega)
    have := unsigned_fixnum w.objectLength (ulongToInteger w) (some (w.toUlong z)) h fun hz => by
        have htoUlong : w.toUlong z = z.toNat := by
          unfold Word.toUlong
          rw [Int.emod_eq_of_lt hz (by omega)]
        exact ⟨congrArg some htoUlong, by
          rw [ulongToInteger_eq (by omega), Int.toNat_of_nonneg hz]⟩
    rw [ofInt_of_inRange h] at this ⊢
    rw [integerToUlongP, integerToUlong, fixnumToLong_emod h, fixnumNegativeP_eq h]
    exact this
  · have := unsigned_roundTrips (w := w) (z := z) (show 0 < w.objectLength by omega)
      (objectLength_lt hw) fun m hm => ulongToInteger_eq hm
    rw [ofInt_of_not_inRange h] at this ⊢
    exact this

theorem uintmax_roundTrips (hw : w.intmaxLength < uintLimit) (z : Int) :
    RoundTrips (integerToUintmaxP w (ofInt w z)) (integerToUintmax w (ofInt w z))
      (fun m => some (uintmaxToInteger w m)) (ofInt w z) ↔ UnsignedTrip w w.intmaxLength z := by
  have hbits := one_lt_objectLength.trans_le (objectLength_le_intmaxLength (w := w))
  by_cases h : InFixnumRange w z
  · have hlong := inRange_long h
    have hpow : 2 ^ w.intmaxLength = 2 * 2 ^ (w.intmaxLength - 1) := two_pow_pred (by omega)
    have hlimit := longLimit_le_intmax (w := w)
    have := unsigned_fixnum w.intmaxLength (uintmaxToInteger w)
      (some (z % (2 ^ w.intmaxLength : Nat)).toNat) h fun hz => by
        have hmod : z % (2 ^ w.intmaxLength : Nat) = z := Int.emod_eq_of_lt hz (by omega)
        exact ⟨by rw [hmod], by
          rw [uintmaxToInteger_eq (by omega), Int.toNat_of_nonneg hz]⟩
    rw [ofInt_of_inRange h] at this ⊢
    rw [integerToUintmaxP, integerToUintmax, fixnumToLong_emod h, fixnumNegativeP_eq h]
    exact this
  · have := unsigned_roundTrips (w := w) (z := z) (show 0 < w.intmaxLength by omega) hw
      fun m hm => uintmaxToInteger_eq hm
    rw [ofInt_of_not_inRange h] at this ⊢
    exact this

/-! ## Exactness -/

end MitScheme
