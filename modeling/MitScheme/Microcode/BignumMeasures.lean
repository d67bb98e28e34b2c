import MitScheme.Microcode.BignumBitwise
import MitScheme.Microcode.IntegerWordsProof
import MitScheme.Microcode.WordBits

/-!
# Measures of the bits of a bignum

The lengths, the lowest one bit, the number of one bits and the Hamming distance of `bignum.c`. Each
is a loop over a magnitude that measures one digit after another; a negative number is complemented
first, or its length is corrected if it is the negative of a power of two.

Lengths and counts are sums in an `unsigned long`. `BIGNUM_LENGTH_MAX` is there to keep them in range.
-/

namespace MitScheme

open BitCounts DigitList TwosComplement Bignum

variable (w : Word)

/-- `BIGNUM_LENGTH_MAX`, which `bignum_allocate` asserts. -/
def Word.bignumLengthMax : Nat := w.radix / w.digitLength - w.digitLength

def bignumLengthInBits (x : Bignum) : Nat :=
  if x.zeroP then 0
  else
    let index := x.length - 1
    (ulongLengthInBits w (x.ref index) + w.digitLength * index) % 2 ^ w.objectLength

def bignumIntegerLength (x : Bignum) : Nat :=
  let lengthInBits := bignumLengthInBits w x
  if x.zeroP || !x.negative then lengthInBits
  else if x.digits.dropLast.any (0 != ·) then lengthInBits
  else
    let last := x.ref (x.length - 1)
    w.toUlong (lengthInBits - if last &&& (last - 1) = 0 then 1 else 0)

/-- The scan of `bignum_first_set_bit` past `skipped` digits, with the assertion that it ends at
one that is not zero. -/
def firstSetBitDigits : List Nat → Nat → Option Nat
  | [], _ => none
  | d :: ds, skipped =>
      if d ≠ 0 then
        some ((ulongBitCount w ((d ^^^ (d - 1)) >>> 1) + skipped * w.digitLength)
          % 2 ^ w.objectLength)
      else firstSetBitDigits ds (skipped + 1)

def bignumFirstSetBit (x : Bignum) : Option Int :=
  if x.zeroP then some (-1)
  else do
    let bit ← firstSetBitDigits w x.digits 0
    some (w.toLong bit)

/-- The loop of `digits_bit_count`. -/
def digitsBitCount : List Nat → Nat → Nat
  | [], bitCount => bitCount
  | d :: ds, bitCount => digitsBitCount ds ((bitCount + ulongBitCount w d) % 2 ^ w.objectLength)

/-- `digits_hamming_distance` over all of `y`: the distance, and what is left of `x`. -/
def digitsHammingDistance : List Nat → List Nat → Nat → Option (Nat × List Nat)
  | xs, [], distance => some (distance, xs)
  | [], _ :: _, _ => none
  | x :: xs, y :: ys, distance =>
      digitsHammingDistance xs ys ((distance + ulongBitCount w (x ^^^ y)) % 2 ^ w.objectLength)

/-- `bignum_positive_hamming_distance`, with its assertions. -/
def bignumPositiveHammingDistance (x y : Bignum) : Option Nat := do
  guard (!x.zeroP ∧ !y.zeroP ∧ !x.negative ∧ !y.negative)
  let (x, y) := if x.length < y.length then (y, x) else (x, y)
  let (distance, rest) ← digitsHammingDistance w x.digits y.digits 0
  some ((distance + digitsBitCount w rest 0) % 2 ^ w.objectLength)

def bignumBitCountUnsigned (x : Bignum) : Nat := digitsBitCount w x.digits 0

def bignumNegativeHammingDistance (x y : Bignum) : Option Nat := do
  let x ← bignumBitwiseNot w x
  let y ← bignumBitwiseNot w y
  if x.zeroP then some (bignumBitCountUnsigned w y)
  else if y.zeroP then some (bignumBitCountUnsigned w x)
  else bignumPositiveHammingDistance w x y

def bignumBitCount (x : Bignum) : Option Nat :=
  if x.zeroP then some 0
  else if x.negative then do
    let y ← bignumBitwiseNot w x
    some (bignumBitCountUnsigned w y)
  else some (bignumBitCountUnsigned w x)

/-- `bignum_hamming_distance`; `same` says whether the operands are one object. -/
def bignumHammingDistance (same : Bool) (x y : Bignum) : Option Int :=
  if same then some 0
  else if x.zeroP then
    some (if y.negative then -1 else w.toLong (bignumBitCountUnsigned w y))
  else if y.zeroP then
    some (if x.negative then -1 else w.toLong (bignumBitCountUnsigned w x))
  else if !x.negative then
    if !y.negative then (bignumPositiveHammingDistance w x y).map w.toLong else some (-1)
  else
    if !y.negative then some (-1) else (bignumNegativeHammingDistance w x y).map w.toLong

variable {w}

theorem radix_lt_ulong : w.radix < 2 ^ w.objectLength := by
  unfold Word.radix Word.objectLength
  exact Nat.pow_lt_pow_right (by decide) (by omega)

theorem digitLength_mul_lt {k : Nat} (h : k ≤ w.bignumLengthMax) : w.digitLength * k < w.radix := by
  have hd := digitLength_pos (w := w)
  have hdiv : w.digitLength * (w.radix / w.digitLength) ≤ w.radix := Nat.mul_div_le _ _
  have hle : w.digitLength * k ≤ w.digitLength * w.bignumLengthMax := Nat.mul_le_mul_left _ h
  unfold Word.bignumLengthMax at hle
  rw [Nat.mul_sub] at hle
  have hsquare : 0 < w.digitLength * w.digitLength := Nat.mul_pos hd hd
  have hr := w.radix_pos
  omega

variable {z p q : Int}

theorem natAbs_lt_two_pow : z.natAbs < 2 ^ (w.digitLength * digitCount w z) := by
  have h := natAbs_lt_radix_pow (w := w) (z := z).mpr le_rfl
  rwa [radix_pow, Nat.mul_comm] at h

/-! ## Lengths -/

theorem ref_lt (x : Bignum) (h : Below w.radix x.digits) (i : Nat) : x.ref i < w.radix :=
  h.getD w.radix_pos i

theorem digit_lt_ulong {d : Nat} (h : d < w.radix) : d < 2 ^ w.objectLength :=
  h.trans radix_lt_ulong

theorem leading_digit (hz : z ≠ 0) :
    (ofInt w z).ref ((ofInt w z).length - 1)
        = z.natAbs / 2 ^ (w.digitLength * ((ofInt w z).length - 1))
      ∧ 2 ^ (w.digitLength * ((ofInt w z).length - 1)) ≤ z.natAbs := by
  have hlen : (ofInt w z).length = digitCount w z := rfl
  have hpos : 0 < digitCount w z :=
    Nat.pos_of_ne_zero fun h => hz (eq_zero_of_digitCount h)
  have hlt := natAbs_lt_two_pow (w := w) (z := z)
  have hle : w.radix ^ (digitCount w z - 1) ≤ z.natAbs :=
    radix_pow_le_natAbs (by omega)
  rw [ref_leading hlen.symm.symm]
  rw [radix_pow, Nat.mul_comm] at hle ⊢
  refine ⟨Nat.mod_eq_of_lt ?_, hle⟩
  rw [Nat.div_lt_iff_lt_mul (Nat.two_pow_pos _), Word.radix, ← Nat.pow_add]
  refine hlt.trans_le (Nat.pow_le_pow_right (by decide) ?_)
  rw [Nat.add_comm, ← Nat.mul_succ, Nat.succ_eq_add_one, Nat.sub_add_cancel hpos]

theorem size_natAbs_le : Nat.size z.natAbs ≤ w.digitLength * digitCount w z :=
  Nat.size_le.mpr natAbs_lt_two_pow

theorem bignumLengthInBits_ofInt (hw : w.ByteSized) (hmax : digitCount w z ≤ w.bignumLengthMax) :
    bignumLengthInBits w (ofInt w z) = Nat.size z.natAbs := by
  unfold bignumLengthInBits
  rw [zeroP_ofInt]
  by_cases hz : z = 0
  · simp [hz]
  · have hlead := leading_digit (w := w) hz
    have hdigit := digit_lt_ulong (ref_lt (ofInt w z) (below_digits w.one_lt_radix _)
      ((ofInt w z).length - 1))
    have hsize := size_natAbs_le (w := w) (z := z)
    have hlt := (digitLength_mul_lt hmax).trans (radix_lt_ulong (w := w))
    rw [decide_eq_false hz, if_neg Bool.false_ne_true]
    dsimp only
    rw [ulongLengthInBits_eq hw hdigit, hlead.1, ← size_div_two_pow hlead.2,
      Nat.mod_eq_of_lt (by omega)]

theorem value_eq_zero_iff {ds : List Nat} : w.value ds = 0 ↔ ds.any (0 != ·) = false := by
  induction ds with
  | nil => simp
  | cons d ds ih =>
      have hr := w.radix_pos
      rw [value_cons, List.any_cons, Bool.or_eq_false_iff, ← ih, Nat.add_eq_zero_iff, Nat.mul_eq_zero]
      simp only [bne_eq_false_iff_eq]
      omega

theorem take_any {a k : Nat} (hk : k ≤ (Nat.digits w.radix a).length) :
    ((Nat.digits w.radix a).take k).any (0 != ·) = false ↔ a % w.radix ^ k = 0 := by
  have hbelow := below_digits w.one_lt_radix a
  have hsplit := ofDigits_take_drop (b := w.radix) (Nat.digits w.radix a) k hk
  have hlt := value_lt (hbelow.take k)
  rw [List.length_take_of_le hk] at hlt
  rw [Nat.ofDigits_digits] at hsplit
  have hmod : a % w.radix ^ k = w.value ((Nat.digits w.radix a).take k) := by
    conv_lhs => rw [hsplit]
    rw [Nat.add_mul_mod_self_left]
    exact Nat.mod_eq_of_lt hlt
  rw [← value_eq_zero_iff (w := w), hmod]

theorem dropLast_any (z : Int) :
    (ofInt w z).digits.dropLast.any (0 != ·) = false
      ↔ z.natAbs % 2 ^ (w.digitLength * ((ofInt w z).length - 1)) = 0 := by
  rw [List.dropLast_eq_take, Nat.mul_comm, ← radix_pow]
  exact take_any (Nat.sub_le _ _)

theorem bignumIntegerLength_ofInt (hw : w.ByteSized) (hmax : digitCount w z ≤ w.bignumLengthMax) :
    bignumIntegerLength w (ofInt w z) = Nat.size (signedBits z) := by
  have hlength := bignumLengthInBits_ofInt hw hmax
  have hsize := size_natAbs_le (w := w) (z := z)
  have hlt := (digitLength_mul_lt hmax).trans (radix_lt_ulong (w := w))
  unfold bignumIntegerLength
  rw [zeroP_ofInt, hlength]
  change (if decide (z = 0) || !decide (z < 0) then _ else _) = _
  by_cases hneg : z < 0
  · have hz : z ≠ 0 := by omega
    have hlead := leading_digit (w := w) hz
    have hpred := size_pred (x := z.natAbs) (by omega)
    have hbits : signedBits z = z.natAbs - 1 := by
      rw [signedBits, if_pos hneg, lnot_eq]
      omega
    simp only [and_pred_eq_zero_iff hlead.2, ← dropLast_any z, ← hlead.1] at hpred
    rw [decide_eq_false hz, decide_eq_true hneg, if_neg (by decide), hbits]
    cases hany : (ofInt w z).digits.dropLast.any (0 != ·) with
    | true =>
        rw [hany, if_neg (by simp)] at hpred
        rw [if_pos rfl]
        omega
    | false =>
        simp only [hany, true_and] at hpred
        rw [if_neg Bool.false_ne_true]
        have hsub : ((Nat.size z.natAbs : Int) - if (ofInt w z).ref
            ((ofInt w z).length - 1) &&& ((ofInt w z).ref
              ((ofInt w z).length - 1) - 1) = 0 then 1 else 0)
            = (Nat.size (z.natAbs - 1) : Int) := by
          split at hpred <;> omega
        dsimp only
        rw [hsub, Word.toUlong, Int.emod_eq_of_lt (by omega) (by omega), Int.toNat_natCast]
  · have hbits : signedBits z = z.natAbs := by
      rw [signedBits, if_neg hneg]
      omega
    rw [decide_eq_false hneg, Bool.not_false, Bool.or_true, if_pos rfl, hbits]

/-! ## The lowest one bit -/

/-- **The scan of `bignum_first_set_bit`.** -/
theorem firstSetBitDigits_eq (hw : w.ByteSized) :
    ∀ {ds : List Nat} {skipped : Nat}, Below w.radix ds → w.value ds ≠ 0 →
      ∃ e q, w.value ds = 2 ^ e * (2 * q + 1)
        ∧ firstSetBitDigits w ds skipped = some ((e + skipped * w.digitLength) % 2 ^ w.objectLength)
  | [], _, _, h => absurd rfl h
  | d :: ds, skipped, hbelow, h => by
      obtain ⟨hd, hds⟩ := below_cons.mp hbelow
      rw [value_cons] at h ⊢
      rw [firstSetBitDigits]
      by_cases hzero : d = 0
      · -- a zero digit moves the bit up by the length of a digit
        rw [hzero, Nat.zero_add] at h
        obtain ⟨e, q, hvalue, heq⟩ := @firstSetBitDigits_eq hw ds (skipped + 1) hds
          (Nat.mul_ne_zero_iff.mp h).2
        refine ⟨e + w.digitLength, q, ?_, ?_⟩
        · rw [hzero, hvalue, Word.radix]
          ring
        · rw [if_neg (not_not.mpr hzero), heq, Nat.succ_mul]
          congr 2
          omega
      · obtain ⟨e, q, rfl⟩ := exists_odd_part hzero
        have hle : 2 ^ e ≤ 2 ^ e * (2 * q + 1) := Nat.le_mul_of_pos_right _ (by omega)
        have he : e < w.digitLength :=
          (Nat.pow_lt_pow_iff_right (show 1 < 2 by decide)).mp (hle.trans_lt hd)
        have hulong := radix_lt_ulong (w := w)
        obtain ⟨t, ht⟩ := Nat.exists_eq_add_of_lt he
        refine ⟨e, q + 2 ^ t * w.value ds, ?_, ?_⟩
        · rw [Word.radix, ht, Nat.pow_add]
          ring
        · rw [if_pos hzero, xor_pred_shiftRight, ulongBitCount_eq hw (by omega),
            onesCount_two_pow_sub_one]

theorem bignumFirstSetBit_ofInt (hw : w.ByteSized) (hmax : digitCount w z ≤ w.bignumLengthMax) :
    ∃ e, bignumFirstSetBit w (ofInt w z) = some e ∧ FirstSetBit z e
      ∧ -1 ≤ e ∧ e < w.radix := by
  unfold bignumFirstSetBit
  rw [zeroP_ofInt]
  by_cases hz : z = 0
  · refine ⟨-1, ?_, ?_, by omega, by omega⟩
    · rw [decide_eq_true hz, if_pos rfl]
    · rw [FirstSetBit, if_pos hz]
  · obtain ⟨e, q, hvalue, heq⟩ := @firstSetBitDigits_eq w hw (Nat.digits w.radix z.natAbs) 0
      (below_digits w.one_lt_radix _) (by rw [value_digits]; omega)
    rw [value_digits] at hvalue
    have hle : 2 ^ e ≤ z.natAbs := by
      rw [hvalue]
      exact Nat.le_mul_of_pos_right _ (by omega)
    have he := (Nat.pow_lt_pow_iff_right (show 1 < 2 by decide)).mp
      (hle.trans_lt (natAbs_lt_two_pow (w := w)))
    have hlt := digitLength_mul_lt hmax
    have hulong := radix_lt_ulong (w := w)
    have hlimit := w.longLimit_eq
    rw [Nat.zero_mul, Nat.add_zero, Nat.mod_eq_of_lt (by omega)] at heq
    refine ⟨e, ?_, firstSetBit_of_odd_part hvalue, by omega, by omega⟩
    rw [decide_eq_false hz]
    change (firstSetBitDigits w (Nat.digits w.radix z.natAbs) 0).bind _ = _
    rw [heq, Option.bind_some, Word.toLong, if_pos (by omega)]

theorem digit_bitCount (hw : w.ByteSized) {d : Nat} (h : d < w.radix) :
    ulongBitCount w d = onesCount d := ulongBitCount_eq hw (digit_lt_ulong h)

theorem digitsBitCount_eq (hw : w.ByteSized) :
    ∀ {ds : List Nat} {c : Nat}, Below w.radix ds → c < 2 ^ w.objectLength →
      digitsBitCount w ds c = (c + onesCount (w.value ds)) % 2 ^ w.objectLength
  | [], c, _, hc => by rw [digitsBitCount, value_nil, onesCount_zero, Nat.add_zero, Nat.mod_eq_of_lt hc]
  | d :: ds, c, hbelow, hc => by
      obtain ⟨hd, hds⟩ := below_cons.mp hbelow
      rw [digitsBitCount, digitsBitCount_eq hw hds (Nat.mod_lt _ (Nat.two_pow_pos _)),
        digit_bitCount hw hd, value_cons, Word.radix, onesCount_fields _ hd, Nat.mod_add_mod,
        Nat.add_assoc]

theorem bignumBitCountUnsigned_ofInt (hw : w.ByteSized)
    (hmax : digitCount w z ≤ w.bignumLengthMax) :
    bignumBitCountUnsigned w (ofInt w z) = onesCount z.natAbs := by
  have hle := onesCount_le (natAbs_lt_two_pow (w := w) (z := z))
  have hlt := (digitLength_mul_lt hmax).trans (radix_lt_ulong (w := w))
  have heq := digitsBitCount_eq hw (c := 0) (below_digits w.one_lt_radix z.natAbs)
    (Nat.two_pow_pos _)
  rw [value_digits, Nat.zero_add, Nat.mod_eq_of_lt (by omega)] at heq
  exact heq

theorem digitCount_lnot (h : z < 0) : digitCount w (Int.lnot z) ≤ digitCount w z := by
  have hlt := natAbs_lt_radix_pow (w := w) (z := z).mpr le_rfl
  refine natAbs_lt_radix_pow.mp (Nat.lt_of_le_of_lt ?_ hlt)
  rw [lnot_eq]
  omega

theorem natAbs_lnot (h : z < 0) : (Int.lnot z).natAbs = signedBits z := by
  rw [signedBits, if_pos h, lnot_eq]
  omega

theorem natAbs_of_nonneg (h : ¬ z < 0) : z.natAbs = signedBits z := by
  rw [signedBits, if_neg h]
  omega

theorem bignumBitCount_ofInt (hw : w.ByteSized) (hmax : digitCount w z ≤ w.bignumLengthMax) :
    bignumBitCount w (ofInt w z) = some (onesCount (signedBits z)) := by
  unfold bignumBitCount
  rw [zeroP_ofInt]
  change (if decide (z = 0) = true then _ else if decide (z < 0) = true then _ else _) = _
  by_cases hz : z = 0
  · rw [decide_eq_true hz, hz]
    simp [signedBits]
  rw [decide_eq_false hz, if_neg Bool.false_ne_true]
  by_cases hneg : z < 0
  · rw [decide_eq_true hneg, if_pos rfl, bignumBitwiseNot_ofInt, Option.bind_eq_bind,
      Option.bind_some, bignumBitCountUnsigned_ofInt hw ((digitCount_lnot hneg).trans hmax),
      natAbs_lnot hneg]
  · rw [decide_eq_false hneg, if_neg Bool.false_ne_true, bignumBitCountUnsigned_ofInt hw hmax,
      natAbs_of_nonneg hneg]

/-! ## The Hamming distance -/

/-- **The loop of `digits_hamming_distance`**, together with the count of what it leaves. -/
theorem digitsHammingDistance_spec (hw : w.ByteSized) :
    ∀ {xs ys : List Nat} {c : Nat}, ys.length ≤ xs.length → Below w.radix xs → Below w.radix ys →
      c < 2 ^ w.objectLength →
      ∃ d rest, digitsHammingDistance w xs ys c = some (d, rest) ∧ Below w.radix rest
        ∧ (d + onesCount (w.value rest)) % 2 ^ w.objectLength
          = (c + onesCount (w.value xs ^^^ w.value ys)) % 2 ^ w.objectLength
  | xs, [], c, _, hxs, _, _ => by
      refine ⟨c, xs, by cases xs <;> rfl, hxs, ?_⟩
      rw [value_nil, Nat.xor_zero]
  | [], _ :: _, _, h, _, _, _ => absurd h (by simp)
  | x :: xs, y :: ys, c, h, hxs, hys, hc => by
      obtain ⟨hx, hxs⟩ := below_cons.mp hxs
      obtain ⟨hy, hys⟩ := below_cons.mp hys
      obtain ⟨d, rest, heq, hrest, hsum⟩ := digitsHammingDistance_spec hw
        (c := (c + ulongBitCount w (x ^^^ y)) % 2 ^ w.objectLength) (Nat.le_of_succ_le_succ h)
        hxs hys (Nat.mod_lt _ (Nat.two_pow_pos _))
      have hxy : x ^^^ y < w.radix := bitwise_lt_radix hx hy
      have hfields : (x + w.radix * w.value xs) ^^^ (y + w.radix * w.value ys)
          = (x ^^^ y) + w.radix * (w.value xs ^^^ w.value ys) := bitwise_digit rfl hx hy _ _
      refine ⟨d, rest, by rw [digitsHammingDistance, heq], hrest, ?_⟩
      rw [hsum, value_cons, value_cons, hfields, Word.radix, onesCount_fields _ hxy,
        digit_bitCount hw hxy, Nat.mod_add_mod, Nat.add_assoc]

theorem hammingDistance_digits (hw : w.ByteSized)
    (hlen : digitCount w q ≤ digitCount w p) (hmax : digitCount w p ≤ w.bignumLengthMax) :
    ((digitsHammingDistance w (Nat.digits w.radix p.natAbs) (Nat.digits w.radix q.natAbs) 0).bind
        fun (d, rest) => some ((d + digitsBitCount w rest 0) % 2 ^ w.objectLength))
      = some (onesCount (p.natAbs ^^^ q.natAbs)) := by
  obtain ⟨d, rest, heq, hrest, hsum⟩ := digitsHammingDistance_spec hw (c := 0) hlen
    (below_digits w.one_lt_radix p.natAbs) (below_digits w.one_lt_radix q.natAbs)
    (Nat.two_pow_pos _)
  have hle := onesCount_le (Nat.xor_lt_two_pow (natAbs_lt_two_pow (w := w) (z := p))
    (natAbs_lt_two_pow.trans_le (Nat.pow_le_pow_right (by decide)
      (Nat.mul_le_mul_left w.digitLength hlen))))
  have hlt := (digitLength_mul_lt hmax).trans (radix_lt_ulong (w := w))
  rw [value_digits, value_digits, Nat.zero_add,
    Nat.mod_eq_of_lt (show onesCount (p.natAbs ^^^ q.natAbs) < _ by omega)] at hsum
  rw [heq, Option.bind_some]
  dsimp only
  rw [digitsBitCount_eq hw hrest (Nat.two_pow_pos _), Nat.zero_add, Nat.add_mod_mod, hsum]

theorem bignumPositiveHammingDistance_ofInt (hw : w.ByteSized) (hp : 0 < p) (hq : 0 < q)
    (hpmax : digitCount w p ≤ w.bignumLengthMax) (hqmax : digitCount w q ≤ w.bignumLengthMax) :
    bignumPositiveHammingDistance w (ofInt w p) (ofInt w q)
      = some (onesCount (p.natAbs ^^^ q.natAbs)) := by
  have hguard : (!(ofInt w p).zeroP) = true ∧ (!(ofInt w q).zeroP) = true
      ∧ (!(ofInt w p).negative) = true ∧ (!(ofInt w q).negative) = true := by
    have hneg : ∀ z : Int, (ofInt w z).negative = decide (z < 0) := fun _ => rfl
    rw [zeroP_ofInt, zeroP_ofInt, hneg, hneg, decide_eq_false (by omega), decide_eq_false (by omega),
      decide_eq_false (by omega), decide_eq_false (by omega)]
    decide
  unfold bignumPositiveHammingDistance
  rw [guard, if_pos hguard, Option.bind_eq_bind, Option.pure_def]
  by_cases h : (ofInt w p).length < (ofInt w q).length
  · rw [if_pos h, Nat.xor_comm]
    exact hammingDistance_digits hw h.le hqmax
  · rw [if_neg h]
    exact hammingDistance_digits hw (not_lt.mp h) hpmax

theorem signedBits_xor (h : p < 0 ↔ q < 0) :
    signedBits (Int.xor p q) = signedBits p ^^^ signedBits q := by
  have hnat : ∀ a : Nat, signedBits (a : Int) = a := fun a => by
    rw [signedBits, if_neg (by omega), Int.toNat_natCast]
  have hneg : ∀ a : Nat, signedBits (Int.negSucc a) = a := fun a => by
    rw [signedBits, if_pos (by omega)]
    rfl
  cases p with
  | ofNat a =>
      cases q with
      | ofNat b => exact (hnat _).trans (congrArg₂ (· ^^^ ·) (hnat a) (hnat b)).symm
      | negSucc b => exact absurd (h.mpr (by omega)) (by simp)
  | negSucc a =>
      cases q with
      | ofNat b => exact absurd (h.mp (by omega)) (by simp)
      | negSucc b => exact (hnat _).trans (congrArg₂ (· ^^^ ·) (hneg a) (hneg b)).symm

theorem bignumNegativeHammingDistance_ofInt (hw : w.ByteSized) (hp : p < 0) (hq : q < 0)
    (hpmax : digitCount w p ≤ w.bignumLengthMax) (hqmax : digitCount w q ≤ w.bignumLengthMax) :
    bignumNegativeHammingDistance w (ofInt w p) (ofInt w q)
      = some (onesCount (signedBits p ^^^ signedBits q)) := by
  have hpnot := (digitCount_lnot (w := w) hp).trans hpmax
  have hqnot := (digitCount_lnot (w := w) hq).trans hqmax
  unfold bignumNegativeHammingDistance
  rw [bignumBitwiseNot_ofInt, bignumBitwiseNot_ofInt, Option.bind_eq_bind, Option.bind_some,
    Option.bind_some, zeroP_ofInt, zeroP_ofInt, ← natAbs_lnot hp, ← natAbs_lnot hq, bignumBitCountUnsigned_ofInt hw hpnot, bignumBitCountUnsigned_ofInt hw hqnot]
  by_cases hp0 : Int.lnot p = 0
  · rw [decide_eq_true hp0, if_pos rfl, hp0, Int.natAbs_zero, Nat.zero_xor]
  rw [decide_eq_false hp0, if_neg Bool.false_ne_true]
  by_cases hq0 : Int.lnot q = 0
  · rw [decide_eq_true hq0, if_pos rfl, hq0, Int.natAbs_zero, Nat.xor_zero]
  rw [decide_eq_false hq0]
  have hp1 := lnot_eq p
  have hq1 := lnot_eq q
  exact bignumPositiveHammingDistance_ofInt hw (by omega) (by omega) hpnot hqnot

theorem signedBits_lt (hmax : digitCount w z ≤ w.bignumLengthMax) :
    signedBits z < 2 ^ (w.digitLength * w.bignumLengthMax) := by
  have hlt : z.natAbs < 2 ^ (w.digitLength * w.bignumLengthMax) := natAbs_lt_two_pow.trans_le
    (Nat.pow_le_pow_right (by decide) (Nat.mul_le_mul_left w.digitLength hmax))
  unfold signedBits
  rw [lnot_eq]
  split <;> omega

theorem signedBits_xor_lt (hpmax : digitCount w p ≤ w.bignumLengthMax)
    (hqmax : digitCount w q ≤ w.bignumLengthMax) :
    onesCount (signedBits p ^^^ signedBits q) < w.radix :=
  (onesCount_le (Nat.xor_lt_two_pow (signedBits_lt hpmax) (signedBits_lt hqmax))).trans_lt
    (digitLength_mul_lt le_rfl)

/-- The Hamming distance of two integers, with minus one for no finite one. -/
def hammingDistance (p q : Int) : Int :=
  if p < 0 ↔ q < 0 then onesCount (signedBits (Int.xor p q)) else -1

theorem bignumHammingDistance_ofInt (hw : w.ByteSized) {same : Bool}
    (hsame : same = true → p = q) (hpmax : digitCount w p ≤ w.bignumLengthMax)
    (hqmax : digitCount w q ≤ w.bignumLengthMax) :
    bignumHammingDistance w same (ofInt w p) (ofInt w q)
      = some (hammingDistance p q) := by
  have hlong : ∀ n : Nat, n < w.radix → w.toLong n = n := by
    intro n hn
    have hlimit := w.longLimit_eq
    rw [Word.toLong, if_pos (by omega)]
  have hcount : ∀ z : Int, digitCount w z ≤ w.bignumLengthMax →
      w.toLong (bignumBitCountUnsigned w (ofInt w z)) = onesCount z.natAbs := by
    intro z hz
    have hle := onesCount_le (natAbs_lt_two_pow (w := w) (z := z))
    rw [bignumBitCountUnsigned_ofInt hw hz, hlong _ (hle.trans_lt (digitLength_mul_lt hz))]
  have hdistance : (p < 0 ↔ q < 0) →
      hammingDistance p q = onesCount (signedBits p ^^^ signedBits q) := by
    intro h
    rw [hammingDistance, if_pos h, signedBits_xor h]
  unfold bignumHammingDistance
  cases same with
  | true =>
      rw [hdistance (by rw [hsame rfl]), hsame rfl, Nat.xor_self]
      rfl
  | false =>
      rw [zeroP_ofInt, zeroP_ofInt]
      change (if decide (p = 0) = true then some (if decide (q < 0) = true then _ else _)
        else if decide (q = 0) = true then some (if decide (p < 0) = true then _ else _)
        else if (!decide (p < 0)) = true then if (!decide (q < 0)) = true then _ else _
        else if (!decide (q < 0)) = true then _ else _) = _
      have hzero : signedBits 0 = 0 := rfl
      by_cases hp0 : p = 0
      · rw [decide_eq_true hp0, if_pos rfl]
        by_cases hq : q < 0
        · rw [decide_eq_true hq, if_pos rfl, hammingDistance, if_neg (by omega)]
        · rw [decide_eq_false hq, if_neg Bool.false_ne_true, hcount q hqmax, hdistance (by omega),
            hp0, hzero, Nat.zero_xor, natAbs_of_nonneg hq]
      rw [decide_eq_false hp0, if_neg Bool.false_ne_true]
      by_cases hq0 : q = 0
      · rw [decide_eq_true hq0, if_pos rfl]
        by_cases hp : p < 0
        · rw [decide_eq_true hp, if_pos rfl, hammingDistance, if_neg (by omega)]
        · rw [decide_eq_false hp, if_neg Bool.false_ne_true, hcount p hpmax, hdistance (by omega),
            hq0, hzero, Nat.xor_zero, natAbs_of_nonneg hp]
      rw [decide_eq_false hq0, if_neg Bool.false_ne_true]
      by_cases hp : p < 0
      · rw [decide_eq_true hp, Bool.not_true, if_neg Bool.false_ne_true]
        by_cases hq : q < 0
        · rw [decide_eq_true hq, Bool.not_true, if_neg Bool.false_ne_true,
            bignumNegativeHammingDistance_ofInt hw hp hq hpmax hqmax, hdistance (by omega),
            Option.map_some, hlong _ (signedBits_xor_lt hpmax hqmax)]
        · rw [decide_eq_false hq, Bool.not_false, if_pos rfl, hammingDistance, if_neg (by omega)]
      · rw [decide_eq_false hp, Bool.not_false, if_pos rfl]
        by_cases hq : q < 0
        · rw [decide_eq_true hq, Bool.not_true, if_neg Bool.false_ne_true, hammingDistance,
            if_neg (by omega)]
        · rw [decide_eq_false hq, Bool.not_false, if_pos rfl,
            bignumPositiveHammingDistance_ofInt hw (by omega) (by omega) hpmax hqmax,
            hdistance (by omega), Option.map_some, natAbs_of_nonneg hp, natAbs_of_nonneg hq,
            hlong _ (signedBits_xor_lt hpmax hqmax)]

end MitScheme
