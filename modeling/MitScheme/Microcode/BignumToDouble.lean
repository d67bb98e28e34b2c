import MitScheme.Lib.Rounding
import MitScheme.Microcode.BignumShift

/-!
# Bignums as floating-point numbers

`bignum_to_double`: the leading digits are gathered in a `double` until it has all the bits it can
hold, the bits below decide about rounding, and the result is scaled.

A `double` is read as the integer it holds. An operation on it gives `none` unless its exact result
is a `double`, so nothing is rounded but by the code itself.
-/

namespace MitScheme

open BitCounts DigitList Rounding Bignum Option

variable (w : Word)

def dblMantDig : Nat := 53

def dblMaxExp : Nat := 1024

/-- The value of an expression of type `double`, if it is one. -/
def exactDouble (n : Nat) : Option Nat :=
  if n % 2 ^ (Nat.size n - dblMantDig) = 0 ∧ n < 2 ^ dblMaxExp then some n else none

/-- What the loop of `bignum_to_double` leaves for rounding. -/
structure GatheredDigits where
  value : Nat
  index : Nat
  scaleWords : Nat
  guardBitMask : Nat
  roundingCorrection : Nat
deriving DecidableEq

/-- The loop of `bignum_to_double`. Without gathered digits it has left for `finished` with the
value. -/
def gatherDigits (x : Bignum) (index bitsToGet guardBitMask value currentDigitBitCount mask : Nat) :
    Option (Nat × Option GatheredDigits) := do
  let (guardBitMask, mask, currentDigitBitCount, bitsToGet) :=
    if currentDigitBitCount > bitsToGet then
      let guardBitMask := 1 <<< (currentDigitBitCount - bitsToGet - 1)
      (guardBitMask, Nat.ldiff mask ((guardBitMask <<< 1) - 1), bitsToGet, 0)
    else (guardBitMask, mask, currentDigitBitCount, bitsToGet - currentDigitBitCount)
  let digit ← exactDouble (x.ref index &&& mask)
  let scaled ← exactDouble (value * w.radix)
  let value ← exactDouble (scaled + digit)
  if bitsToGet = 0 then
    if currentDigitBitCount = w.digitLength then
      match index with
      | 0 => some (value, none)
      | i + 1 => some (value, some ⟨value, i, i + 1, 1 <<< (w.digitLength - 1), 1⟩)
    else some (value, some ⟨value, index, index, guardBitMask, guardBitMask <<< 1⟩)
  else
    match index with
    | 0 => some (value, none)
    | i + 1 => gatherDigits x i bitsToGet guardBitMask value w.digitLength (w.radix - 1)

/-- Where the tests on the guard bit and what is below it lead. -/
inductive RoundingBranch where
  | roundUp
  | roundDown
  | finished
deriving DecidableEq

/-- The tests of `bignum_to_double` between its loop and `round_up`. -/
def roundingBranch (x : Bignum) (g : GatheredDigits) : RoundingBranch :=
  let digit := x.ref g.index
  if digit &&& g.guardBitMask = 0 then RoundingBranch.roundDown
  else if digit &&& (g.guardBitMask - 1) ≠ 0 then RoundingBranch.roundUp
  else if (if g.guardBitMask <<< 1 = w.radix then x.ref (g.index + 1) &&& 1
      else digit &&& (g.guardBitMask <<< 1)) ≠ 0 then RoundingBranch.roundUp
  else if g.index = 0 then RoundingBranch.finished
  else if (x.digits.take g.index).any (0 != ·) then RoundingBranch.roundUp
  else RoundingBranch.roundDown

/-- `ldexp`, as it is called here. -/
def scaleDouble (value scaleWords : Nat) : Option Nat :=
  if 0 < scaleWords then exactDouble (value * 2 ^ (scaleWords * w.digitLength)) else some value

/-- What `bignum_to_double` makes of the gathered digits. -/
def roundDigits (x : Bignum) (g : GatheredDigits) : Option Nat :=
  match roundingBranch w x g with
  | RoundingBranch.roundUp => do
      let value ← exactDouble (g.value + g.roundingCorrection)
      scaleDouble w value g.scaleWords
  | RoundingBranch.roundDown => scaleDouble w g.value g.scaleWords
  | RoundingBranch.finished => some g.value

def bignumToDouble (x : Bignum) : Option Int :=
  if x.zeroP then some 0
  else do
    let index := x.length - 1
    let currentDigitBitCount := ulongLengthInBits w (x.ref index)
    let (value, gathered) ← gatherDigits w x index dblMantDig (w.radix >>> 1) 0 currentDigitBitCount
      (2 ^ currentDigitBitCount - 1)
    let value ← (match gathered with
      | none => some value
      | some g => roundDigits w x g)
    some (if x.negative then -(value : Int) else value)

variable {w}

variable {m i n c guard : Nat} {x : Bignum}

theorem exactDouble_eq {k : Nat} (hm : m < 2 ^ dblMantDig) (h : m * 2 ^ k < 2 ^ dblMaxExp) :
    exactDouble (m * 2 ^ k) = some (m * 2 ^ k) := by
  have hsize : Nat.size (m * 2 ^ k) ≤ dblMantDig + k := by
    rw [Nat.size_le, Nat.pow_add]
    exact Nat.mul_lt_mul_of_pos_right hm (Nat.two_pow_pos k)
  have hdvd : 2 ^ (Nat.size (m * 2 ^ k) - dblMantDig) ∣ m * 2 ^ k :=
    (Nat.pow_dvd_pow 2 (by omega)).trans (Nat.dvd_mul_left _ _)
  rw [exactDouble, if_pos ⟨Nat.mod_eq_zero_of_dvd hdvd, h⟩]

theorem exactDouble_carry {k : Nat} (hm : m ≤ 2 ^ dblMantDig) (h : m * 2 ^ k < 2 ^ dblMaxExp) :
    exactDouble (m * 2 ^ k) = some (m * 2 ^ k) := by
  rcases Nat.lt_or_eq_of_le hm with hlt | rfl
  · exact exactDouble_eq hlt h
  · have hone : 2 ^ dblMantDig * 2 ^ k = 1 * 2 ^ (dblMantDig + k) := by
      rw [Nat.one_mul, Nat.pow_add]
    rw [hone] at h ⊢
    exact exactDouble_eq (Nat.one_lt_two_pow (by decide)) h

theorem scaleDouble_eq {m s i : Nat} (hm : m ≤ 2 ^ dblMantDig)
    (h : m * 2 ^ (s + i * w.digitLength) < 2 ^ dblMaxExp) :
    scaleDouble w (m * 2 ^ s) i = some (m * 2 ^ (s + i * w.digitLength)) := by
  unfold scaleDouble
  split
  · rw [Nat.mul_assoc, ← Nat.pow_add]
    exact exactDouble_carry hm h
  · obtain rfl : i = 0 := by omega
    rw [Nat.zero_mul, Nat.add_zero]

/-! ## Rounding -/

theorem and_two_pow_eq_zero : n &&& 2 ^ i = 0 ↔ ¬ n.testBit i = true := by
  rw [Nat.and_two_pow]
  cases n.testBit i <;> simp

/-- **The rounding of `bignum_to_double`**, where the guard bit lies in the digit of the last bit
that was gathered. The number is `m` above the digits below that one, and `m` agrees with the digit
up to the last bit gathered. -/
theorem roundDigits_eq {z : Int} {s low : Nat} (hi : i ≤ digitCount w z)
    (hs : s + 1 < w.digitLength) (hz : z.natAbs = m * 2 ^ (i * w.digitLength) + low)
    (hlow : low < 2 ^ (i * w.digitLength))
    (hdigit : ∀ j ≤ s + 1, ((ofInt w z).ref i).testBit j = m.testBit j)
    (hm : m / 2 ^ (s + 1) < 2 ^ dblMantDig)
    (hmax : roundAt (s + 1 + i * w.digitLength) z.natAbs < 2 ^ dblMaxExp) :
    roundDigits w (ofInt w z) ⟨m / 2 ^ (s + 1) * 2 ^ (s + 1), i, i, 2 ^ s, 2 ^ s <<< 1⟩
      = some (roundAt (s + 1 + i * w.digitLength) z.natAbs) := by
  have hshift : 2 ^ s <<< 1 = 2 ^ (s + 1) := by rw [Nat.shiftLeft_eq, Nat.pow_one, Nat.pow_succ]
  have hradix : 2 ^ (s + 1) ≠ w.radix := (Nat.pow_lt_pow_right (by decide) hs).ne
  have hbelow : (ofInt w z).ref i &&& (2 ^ s - 1) = m % 2 ^ s := by
    rw [Nat.and_two_pow_sub_one_eq_mod]
    refine Nat.eq_of_testBit_eq fun j => ?_
    rw [Nat.testBit_mod_two_pow, Nat.testBit_mod_two_pow]
    by_cases hj : j < s
    · rw [hdigit j (by omega)]
    · simp [hj]
  have hany : ((ofInt w z).digits.take i).any (0 != ·) = false ↔ low = 0 := by
    refine (take_any hi).trans ?_
    rw [radix_pow, hz, Nat.add_comm, Nat.add_mul_mod_self_right, Nat.mod_eq_of_lt hlow]
  have hfields := roundAt_fields (m := m) (s := s) hlow
  rw [← hz] at hfields
  rw [hfields] at hmax ⊢
  have hbranch : roundingBranch w (ofInt w z)
        ⟨m / 2 ^ (s + 1) * 2 ^ (s + 1), i, i, 2 ^ s, 2 ^ s <<< 1⟩
      = if m.testBit s = true ∧ (m % 2 ^ s ≠ 0 ∨ low ≠ 0 ∨ m.testBit (s + 1) = true) then
          RoundingBranch.roundUp
        else if m.testBit s = true ∧ i = 0 then RoundingBranch.finished
        else RoundingBranch.roundDown := by
    unfold roundingBranch
    simp only [hshift, hradix, if_false, hbelow, and_two_pow_eq_zero, hdigit s (by omega)]
    by_cases hguard : m.testBit s = true
    · rw [if_neg (not_not.mpr hguard)]
      by_cases hrest : m % 2 ^ s = 0
      · rw [if_neg (not_not.mpr hrest)]
        by_cases hodd : m.testBit (s + 1) = true
        · rw [if_pos (fun h => (and_two_pow_eq_zero.mp h) ((hdigit (s + 1) le_rfl).trans hodd)),
            if_pos ⟨hguard, Or.inr (Or.inr hodd)⟩]
        · rw [if_neg (not_not.mpr (and_two_pow_eq_zero.mpr fun h =>
            hodd ((hdigit (s + 1) le_rfl).symm.trans h)))]
          by_cases hi0 : i = 0
          · have hlow0 : low = 0 := by
              rw [hi0, Nat.zero_mul] at hlow
              omega
            simp [hi0, hguard, hrest, hodd, hlow0]
          · by_cases hlow0 : low = 0
            · simp [hi0, hguard, hrest, hodd, hlow0, hany.mpr hlow0]
            · have hsome : ((ofInt w z).digits.take i).any (0 != ·) = true :=
                Bool.eq_true_of_not_eq_false fun h => hlow0 (hany.mp h)
              simp [hi0, hguard, hlow0, hsome]
      · rw [if_pos hrest, if_pos ⟨hguard, Or.inl hrest⟩]
    · rw [if_pos hguard, if_neg fun h => hguard h.1, if_neg fun h => hguard h.1]
  unfold roundDigits
  rw [hbranch]
  by_cases hup : m.testBit s = true ∧ (m % 2 ^ s ≠ 0 ∨ low ≠ 0 ∨ m.testBit (s + 1) = true)
  · rw [if_pos hup] at hmax ⊢
    rw [if_pos hup]
    have hsum : m / 2 ^ (s + 1) * 2 ^ (s + 1) + 2 ^ s <<< 1
        = (m / 2 ^ (s + 1) + 1) * 2 ^ (s + 1) := by
      rw [hshift]
      ring
    have hle : (m / 2 ^ (s + 1) + 1) * 2 ^ (s + 1)
        ≤ (m / 2 ^ (s + 1) + 1) * 2 ^ (s + 1 + i * w.digitLength) :=
      Nat.mul_le_mul_left _ (Nat.pow_le_pow_right (by decide) (Nat.le_add_right _ _))
    rw [hsum, exactDouble_carry hm (hle.trans_lt hmax), bind_eq_bind, bind_some,
      scaleDouble_eq hm hmax]
  · rw [if_neg hup] at hmax ⊢
    rw [if_neg hup]
    by_cases hfinished : m.testBit s = true ∧ i = 0
    · rw [if_pos hfinished]
      rw [hfinished.2, Nat.zero_mul]
      simp only [Nat.add_zero]
    · rw [if_neg hfinished]
      exact scaleDouble_eq hm.le hmax

/-! ## Gathering digits -/

theorem and_ldiff {d s : Nat} (hd : d < 2 ^ c) :
    d &&& Nat.ldiff (2 ^ c - 1) (2 ^ s - 1) = d / 2 ^ s * 2 ^ s := by
  refine Nat.eq_of_testBit_eq fun i => ?_
  rw [Nat.testBit_mul_two_pow, Nat.testBit_div_two_pow]
  by_cases hi : s ≤ i
  · have hlt : ¬ i < s := by omega
    by_cases hic : i < c
    · simp [hi, hlt, hic, Nat.sub_add_cancel hi]
    · simp [Nat.sub_add_cancel hi,
        Nat.testBit_lt_two_pow (hd.trans_le (Nat.pow_le_pow_right (by decide) (not_lt.mp hic)))]
  · simp [hi, not_le.mp hi]

theorem and_ones {d : Nat} (hd : d < 2 ^ c) : d &&& (2 ^ c - 1) = d := by
  rw [Nat.and_two_pow_sub_one_eq_mod, Nat.mod_eq_of_lt hd]

theorem exactDouble_small (h : n < 2 ^ dblMantDig) : exactDouble n = some n := by
  have heq := exactDouble_eq (m := n) (k := 0) h (by
    rw [Nat.pow_zero, Nat.mul_one]
    exact h.trans (Nat.pow_lt_pow_right (by decide) (by decide)))
  rwa [Nat.pow_zero, Nat.mul_one] at heq

theorem gatherDigits_enough {index bits value t : Nat} (hbits : bits + t = c)
    (ht : 0 < t) (hshort : bits ≠ w.digitLength) (hd : x.ref index < 2 ^ c)
    (hdigit : exactDouble (x.ref index / 2 ^ t * 2 ^ t) = some (x.ref index / 2 ^ t * 2 ^ t))
    (hscaled : exactDouble (value * w.radix) = some (value * w.radix))
    (hsum : exactDouble (value * w.radix + x.ref index / 2 ^ t * 2 ^ t)
      = some (value * w.radix + x.ref index / 2 ^ t * 2 ^ t)) :
    gatherDigits w x index bits guard value c (2 ^ c - 1)
      = some (value * w.radix + x.ref index / 2 ^ t * 2 ^ t,
          some ⟨value * w.radix + x.ref index / 2 ^ t * 2 ^ t, index, index,
            2 ^ (t - 1), 2 ^ (t - 1) <<< 1⟩) := by
  have hguard : c - bits - 1 = t - 1 := by omega
  have hshift : 2 ^ (t - 1) <<< 1 = 2 ^ t := by
    rw [Nat.shiftLeft_eq, ← Nat.pow_succ, Nat.succ_eq_add_one, Nat.sub_add_cancel ht]
  have hmask : x.ref index &&& Nat.ldiff (2 ^ c - 1) (2 ^ (t - 1) <<< 1 - 1)
      = x.ref index / 2 ^ t * 2 ^ t := by
    rw [hshift]
    exact and_ldiff hd
  rw [gatherDigits, if_pos (by omega), hguard, Nat.one_shiftLeft]
  dsimp only
  rw [hmask, hdigit, bind_eq_bind, bind_some, hscaled, bind_some, hsum,
    bind_some, if_pos rfl, if_neg hshort]

theorem gatherDigits_all {index : Nat} (hlong : dblMantDig < w.digitLength)
    (hd : x.ref index < 2 ^ dblMantDig) :
    gatherDigits w x index dblMantDig guard 0 dblMantDig (2 ^ dblMantDig - 1)
      = some (x.ref index, some ⟨x.ref index, index, index, guard, guard <<< 1⟩) := by
  rw [gatherDigits, if_neg (lt_irrefl _)]
  dsimp only
  rw [and_ones hd, exactDouble_small hd, bind_eq_bind, bind_some, Nat.zero_mul,
    exactDouble_small (Nat.two_pow_pos _), bind_some, Nat.zero_add, exactDouble_small hd,
    bind_some, if_pos (Nat.sub_self _), if_neg hlong.ne]

theorem gatherDigits_more (hc : c < dblMantDig) (hd : x.ref (i + 1) < 2 ^ c) :
    gatherDigits w x (i + 1) dblMantDig guard 0 c (2 ^ c - 1)
      = gatherDigits w x i (dblMantDig - c) guard (x.ref (i + 1)) w.digitLength (w.radix - 1) := by
  have hsmall : x.ref (i + 1) < 2 ^ dblMantDig := hd.trans (Nat.pow_lt_pow_right (by decide) hc)
  rw [gatherDigits, if_neg (by omega)]
  dsimp only
  rw [and_ones hd, exactDouble_small hsmall, bind_eq_bind, bind_some, Nat.zero_mul,
    exactDouble_small (Nat.two_pow_pos _), bind_some, Nat.zero_add, exactDouble_small hsmall,
    bind_some, if_neg (by omega)]

theorem gatherDigits_last (hc : c < dblMantDig) (hd : x.ref 0 < 2 ^ c) :
    gatherDigits w x 0 dblMantDig guard 0 c (2 ^ c - 1) = some (x.ref 0, none) := by
  have hsmall : x.ref 0 < 2 ^ dblMantDig := hd.trans (Nat.pow_lt_pow_right (by decide) hc)
  rw [gatherDigits, if_neg (by omega)]
  dsimp only
  rw [and_ones hd, exactDouble_small hsmall, bind_eq_bind, bind_some, Nat.zero_mul,
    exactDouble_small (Nat.two_pow_pos _), bind_some, Nat.zero_add, exactDouble_small hsmall,
    bind_some, if_neg (by omega)]

/-! ## The digits of a magnitude -/

theorem natAbs_fields (z : Int) (i : Nat) :
    z.natAbs = (z.natAbs / 2 ^ ((i + 1) * w.digitLength) * w.radix + (ofInt w z).ref i)
      * 2 ^ (i * w.digitLength) + z.natAbs % 2 ^ (i * w.digitLength) := by
  have hdigit : (ofInt w z).ref i = z.natAbs / 2 ^ (i * w.digitLength) % w.radix := by
    rw [← radix_pow]
    exact Nat.getD_digits _ _ w.one_lt_radix
  have hupper : z.natAbs / 2 ^ ((i + 1) * w.digitLength)
      = z.natAbs / 2 ^ (i * w.digitLength) / w.radix := by
    rw [Nat.succ_mul, Nat.pow_add, Nat.div_div_eq_div_mul, Word.radix]
  rw [hdigit, hupper, Nat.div_add_mod', Nat.div_add_mod']

/-- The gathered digits, rounded. -/
def doubleMagnitude (w : Word) (x : Bignum) (p : Nat × Option GatheredDigits) : Option Nat :=
  match p.2 with
  | none => some p.1
  | some g => roundDigits w x g

theorem leading_fields {z : Int} (hz : z ≠ 0) :
    z.natAbs = (ofInt w z).ref (digitCount w z - 1)
        * 2 ^ ((digitCount w z - 1) * w.digitLength)
      + z.natAbs % 2 ^ ((digitCount w z - 1) * w.digitLength) := by
  have hlead := (leading_digit (w := w) hz).1
  change (ofInt w z).ref (digitCount w z - 1)
    = z.natAbs / 2 ^ (w.digitLength * (digitCount w z - 1)) at hlead
  rw [hlead, Nat.mul_comm w.digitLength, Nat.div_add_mod']

theorem leading_lt (z : Int) :
    (ofInt w z).ref (digitCount w z - 1) < 2 ^ leadingLength w z :=
  Nat.lt_size_self _

theorem div_two_pow_lt {a t b : Nat} (h : n < 2 ^ a) (hab : a = b + t) : n / 2 ^ t < 2 ^ b := by
  rw [Nat.div_lt_iff_lt_mul (Nat.two_pow_pos t), ← Nat.pow_add, ← hab]
  exact h

section Magnitudes

variable {z : Int} (hlong : dblMantDig < w.digitLength) (hz : z ≠ 0)
include hlong hz

theorem magnitude_enough (hfits : 2 * w.digitLength ≤ dblMaxExp)
    (hc : dblMantDig < leadingLength w z)
    (hmax : roundBits dblMantDig z.natAbs < 2 ^ dblMaxExp) :
    ((gatherDigits w (ofInt w z) (digitCount w z - 1) dblMantDig (w.radix >>> 1) 0
        (leadingLength w z) (2 ^ leadingLength w z - 1)).bind
          (doubleMagnitude w (ofInt w z)))
      = some (roundBits dblMantDig z.natAbs) := by
  have hpos : 0 < dblMantDig := by decide
  have hle := leadingLength_le (w := w) z
  have hlt := leading_lt (w := w) z
  have hfields := leading_fields (w := w) hz
  have hsize := size_eq_leadingLength (w := w) hz
  obtain ⟨s, hs⟩ : ∃ s, leadingLength w z = dblMantDig + (s + 1) :=
    ⟨leadingLength w z - dblMantDig - 1, by omega⟩
  have hkept : (ofInt w z).ref (digitCount w z - 1) / 2 ^ (s + 1) < 2 ^ dblMantDig :=
    div_two_pow_lt hlt hs
  have hshort : (ofInt w z).ref (digitCount w z - 1) / 2 ^ (s + 1) * 2 ^ (s + 1)
      < 2 ^ dblMaxExp := by
    refine (Nat.div_mul_le_self _ _).trans_lt (hlt.trans_le ?_)
    exact Nat.pow_le_pow_right (by decide) (by omega)
  have hround : roundBits dblMantDig z.natAbs
      = roundAt (s + 1 + (digitCount w z - 1) * w.digitLength) z.natAbs := by
    rw [roundBits, hsize, Nat.mul_comm w.digitLength]
    congr 1
    omega
  have hkeep := exactDouble_eq hkept hshort
  rw [hround] at hmax ⊢
  rw [gatherDigits_enough hs.symm (Nat.succ_pos s) hlong.ne hlt hkeep
    (by rw [Nat.zero_mul]; exact exactDouble_small (Nat.two_pow_pos _))
    (by rw [Nat.zero_mul, Nat.zero_add]; exact hkeep), Nat.zero_mul, Nat.zero_add]
  exact roundDigits_eq (Nat.sub_le _ _) (by omega) hfields (Nat.mod_lt _ (Nat.two_pow_pos _))
    (fun _ _ => rfl) hkept hmax

theorem magnitude_all (hc : leadingLength w z = dblMantDig)
    (hmax : roundBits dblMantDig z.natAbs < 2 ^ dblMaxExp) :
    ((gatherDigits w (ofInt w z) (digitCount w z - 1) dblMantDig (w.radix >>> 1) 0
        (leadingLength w z) (2 ^ leadingLength w z - 1)).bind
          (doubleMagnitude w (ofInt w z)))
      = some (z.natAbs / 2 ^ ((digitCount w z - 1) * w.digitLength)
          * 2 ^ ((digitCount w z - 1) * w.digitLength)) := by
  have hlead := (leading_digit (w := w) hz).1
  change (ofInt w z).ref (digitCount w z - 1)
    = z.natAbs / 2 ^ (w.digitLength * (digitCount w z - 1)) at hlead
  rw [Nat.mul_comm] at hlead
  have hlt := leading_lt (w := w) z
  rw [hc] at hlt
  have hround : roundBits dblMantDig z.natAbs
      = roundAt ((digitCount w z - 1) * w.digitLength) z.natAbs := by
    rw [roundBits, size_eq_leadingLength hz, hc, Nat.add_sub_cancel_left, Nat.mul_comm]
  rw [hround] at hmax
  have hhalf : w.radix >>> 1 = 2 ^ (w.digitLength - 1) := by
    rw [Nat.shiftRight_eq_div_pow, Word.radix, Nat.pow_div (by omega) (by decide)]
  have hguard : (ofInt w z).ref (digitCount w z - 1) &&& w.radix >>> 1 = 0 := by
    rw [hhalf, and_two_pow_eq_zero, Nat.testBit_lt_two_pow (hlt.trans_le
      (Nat.pow_le_pow_right (by decide) (by omega)))]
    exact Bool.false_ne_true
  have hscale := @scaleDouble_eq w ((ofInt w z).ref (digitCount w z - 1)) 0
    (digitCount w z - 1) hlt.le (by
      rw [Nat.zero_add, hlead]
      exact (le_roundAt _ _).trans_lt hmax)
  rw [Nat.pow_zero, Nat.mul_one, Nat.zero_add] at hscale
  rw [hc, gatherDigits_all hlong hlt, bind_some, ← hlead, ← hscale]
  simp only [doubleMagnitude, roundDigits, roundingBranch, hguard, if_true]

theorem magnitude_more (hfits : 2 * w.digitLength ≤ dblMaxExp)
    (hc : leadingLength w z < dblMantDig)
    (hmax : roundBits dblMantDig z.natAbs < 2 ^ dblMaxExp) :
    ((gatherDigits w (ofInt w z) (digitCount w z - 1) dblMantDig (w.radix >>> 1) 0
        (leadingLength w z) (2 ^ leadingLength w z - 1)).bind
          (doubleMagnitude w (ofInt w z)))
      = some (roundBits dblMantDig z.natAbs) := by
  have hlt := leading_lt (w := w) z
  have hlead := leading_fields (w := w) hz
  have hsize := size_eq_leadingLength (w := w) hz
  cases hk : digitCount w z - 1 with
  | zero =>
      rw [hk] at hlead hsize hlt
      rw [Nat.zero_mul, Nat.pow_zero, Nat.mul_one, Nat.mod_one] at hlead
      have hshort : Nat.size z.natAbs - dblMantDig = 0 := by omega
      rw [roundBits, hshort, roundAt_zero, gatherDigits_last hc hlt, hlead]
      rfl
  | succ i =>
      rw [hk] at hlead hsize hlt
      have hdigit := ref_lt (ofInt w z) (below_digits w.one_lt_radix _) i
      obtain ⟨s, hs⟩ : ∃ s, dblMantDig - leadingLength w z + (s + 1) = w.digitLength :=
        ⟨w.digitLength - (dblMantDig - leadingLength w z) - 1, by omega⟩
      have hradix : w.radix = 2 ^ (w.digitLength - (s + 1)) * 2 ^ (s + 1) := by
        rw [← Nat.pow_add, Word.radix]
        congr 1
        omega
      -- the two digits in one number, whose upper bits are the ones gathered
      have hupper : (ofInt w z).ref (i + 1) = z.natAbs / 2 ^ ((i + 1) * w.digitLength) := by
        have hdiv := (leading_digit (w := w) hz).1
        change (ofInt w z).ref (digitCount w z - 1)
          = z.natAbs / 2 ^ (w.digitLength * (digitCount w z - 1)) at hdiv
        rw [hk, Nat.mul_comm] at hdiv
        exact hdiv
      have hfields := natAbs_fields (w := w) z i
      rw [← hupper] at hfields
      generalize hm : (ofInt w z).ref (i + 1) * w.radix + (ofInt w z).ref i = m
        at hfields
      have hdivm : m / 2 ^ (s + 1) * 2 ^ (s + 1)
          = (ofInt w z).ref (i + 1) * w.radix
            + (ofInt w z).ref i / 2 ^ (s + 1) * 2 ^ (s + 1) := by
        rw [← hm, hradix, ← Nat.mul_assoc, Nat.add_comm, Nat.add_mul_div_right _ _
          (Nat.two_pow_pos _), Nat.add_mul, Nat.add_comm]
      have hmlt : m < 2 ^ (leadingLength w z + w.digitLength) := by
        have hmul := Nat.mul_le_mul_right w.radix hlt
        rw [Nat.succ_mul] at hmul
        rw [← hm, Nat.pow_add]
        exact (Nat.add_lt_add_left hdigit _).trans_le hmul
      have hkept : m / 2 ^ (s + 1) < 2 ^ dblMantDig := div_two_pow_lt hmlt (by omega)
      have hround : roundBits dblMantDig z.natAbs
          = roundAt (s + 1 + i * w.digitLength) z.natAbs := by
        rw [roundBits, hsize, Nat.mul_succ, Nat.mul_comm w.digitLength]
        congr 1
        omega
      rw [hround] at hmax ⊢
      have hdouble : ∀ n < 2 ^ dblMantDig, ∀ t ≤ w.digitLength,
          exactDouble (n * 2 ^ t) = some (n * 2 ^ t) := by
        intro n hn t ht
        refine exactDouble_eq hn ?_
        have hmul := Nat.mul_lt_mul_of_pos_right hn (Nat.two_pow_pos t)
        rw [← Nat.pow_add] at hmul
        exact hmul.trans_le (Nat.pow_le_pow_right (by decide) (by omega))
      have hsum := hdouble _ hkept (s + 1) (by omega)
      rw [hdivm] at hsum
      rw [gatherDigits_more hc hlt, show w.radix - 1 = 2 ^ w.digitLength - 1 from rfl, gatherDigits_enough hs (Nat.succ_pos s)
        (by omega) hdigit
        (hdouble _ ((div_two_pow_lt hdigit hs.symm).trans_le
          (Nat.pow_le_pow_right (by decide) (by omega))) _ (by omega))
        (hdouble _ (hlt.trans_le (Nat.pow_le_pow_right (by decide) hc.le)) _ le_rfl) hsum,
        ← hdivm]
      refine roundDigits_eq (by omega) (by omega) hfields (Nat.mod_lt _ (Nat.two_pow_pos _))
        (fun j hj => ?_) hkept hmax
      rw [← hm, Nat.mul_comm, Word.radix, Nat.testBit_two_pow_mul_add _ hdigit, if_pos (by omega)]

end Magnitudes

/-! ## The conversion -/

/-- The leading digit has just as many bits as a `double`, and the digits below it are worth more
than half of its last bit, or just a half with that bit set. -/
def RoundingSkipped (w : Word) (z : Int) : Prop :=
  leadingLength w z = dblMantDig
    ∧ (2 ^ ((digitCount w z - 1) * w.digitLength)
          < 2 * (z.natAbs % 2 ^ ((digitCount w z - 1) * w.digitLength))
        ∨ (2 * (z.natAbs % 2 ^ ((digitCount w z - 1) * w.digitLength))
            = 2 ^ ((digitCount w z - 1) * w.digitLength)
          ∧ z.natAbs / 2 ^ ((digitCount w z - 1) * w.digitLength) % 2 = 1))

/-- **What `bignum_to_double` computes.** It never rounds by a `double` operation, and where the
leading digit has all the bits of the result it does not round at all. -/
theorem bignumToDouble_ofInt (hw : w.ByteSized) (hlong : dblMantDig < w.digitLength)
    (hfits : 2 * w.digitLength ≤ dblMaxExp) {z : Int}
    (hmax : roundBits dblMantDig z.natAbs < 2 ^ dblMaxExp) :
    bignumToDouble w (ofInt w z)
      = some (z.sign * (if leadingLength w z = dblMantDig then
          z.natAbs / 2 ^ ((digitCount w z - 1) * w.digitLength)
            * 2 ^ ((digitCount w z - 1) * w.digitLength)
        else roundBits dblMantDig z.natAbs : Nat)) := by
  by_cases hz : z = 0
  · rw [hz, Int.sign_zero, Int.zero_mul, bignumToDouble, zeroP_ofInt, decide_eq_true rfl, if_pos rfl]
  · have hmagnitude : ((gatherDigits w (ofInt w z) (digitCount w z - 1) dblMantDig
          (w.radix >>> 1) 0 (leadingLength w z) (2 ^ leadingLength w z - 1)).bind
            (doubleMagnitude w (ofInt w z)))
        = some (if leadingLength w z = dblMantDig then
            z.natAbs / 2 ^ ((digitCount w z - 1) * w.digitLength)
              * 2 ^ ((digitCount w z - 1) * w.digitLength)
          else roundBits dblMantDig z.natAbs) := by
      rcases Nat.lt_trichotomy (leadingLength w z) dblMantDig with hc | hc | hc
      · rw [magnitude_more hlong hz hfits hc hmax, if_neg hc.ne]
      · rw [magnitude_all hlong hz hc hmax, if_pos hc]
      · rw [magnitude_enough hlong hz hfits hc hmax, if_neg hc.ne']
    have hlead : ulongLengthInBits w ((ofInt w z).ref ((ofInt w z).length - 1))
        = leadingLength w z :=
      ulongLengthInBits_eq hw (digit_lt_ulong (ref_lt _ (below_digits w.one_lt_radix _) _))
    obtain ⟨p, hgather, hround⟩ := bind_eq_some_iff.mp hmagnitude
    unfold bignumToDouble
    rw [zeroP_ofInt, decide_eq_false hz, if_neg Bool.false_ne_true]
    dsimp only
    rw [hlead, show (ofInt w z).length = digitCount w z from rfl, hgather,
      bind_eq_bind, bind_some]
    unfold doubleMagnitude at hround
    rw [hround, bind_eq_bind, bind_some]
    have hsign : (ofInt w z).negative = decide (z < 0) := rfl
    rw [hsign]
    rcases Int.lt_or_gt_of_ne hz with hneg | hpos
    · rw [decide_eq_true hneg, if_pos rfl, Int.sign_eq_neg_one_of_neg hneg, Int.neg_one_mul]
    · rw [decide_eq_false (by omega), if_neg Bool.false_ne_true, Int.sign_eq_one_of_pos hpos,
        Int.one_mul]

/-- **The conversion of bignums to floating point** rounds to 53 significant bits, ties to even, if
and only if the rounding is not skipped. -/
theorem bignum_to_double_rounds {b : Bignum} (hb : b.WellFormed w64)
    (hmax : roundBits dblMantDig (b.toInt w64).natAbs < 2 ^ dblMaxExp) :
    bignumToDouble w64 b
        = some ((b.toInt w64).sign * (roundBits dblMantDig (b.toInt w64).natAbs : Nat))
      ↔ ¬ RoundingSkipped w64 (b.toInt w64) := by
  have hdouble := bignumToDouble_ofInt w64_byteSized (by decide) (by decide) hmax
  rw [← hb.eq_ofInt] at hdouble
  generalize b.toInt w64 = z at hdouble hmax ⊢
  rw [hdouble, some_inj]
  unfold RoundingSkipped
  by_cases hc : leadingLength w64 z = dblMantDig
  · have hz : z ≠ 0 := by
      intro hz
      rw [hz] at hc
      revert hc
      decide
    have hsign : z.sign ≠ 0 := fun h => hz (Int.sign_eq_zero_iff_zero.mp h)
    have hround : roundBits dblMantDig z.natAbs
        = roundAt ((digitCount w64 z - 1) * w64.digitLength) z.natAbs := by
      rw [roundBits, size_eq_leadingLength hz, hc, Nat.add_sub_cancel_left, Nat.mul_comm]
    rw [if_pos hc, mul_right_inj' hsign, hround, roundAt]
    simp only [hc, true_and]
    split
    · rename_i hup
      refine iff_of_false ?_ (not_not.mpr hup)
      rw [Nat.add_mul]
      omega
    · rename_i hdown
      exact iff_of_true rfl hdown
  · rw [if_neg hc]
    exact iff_of_true rfl fun h => hc h.1

theorem bignum_to_double_rounds_three :
    bignumToDouble w64 ⟨true, [5, 2 ^ 61 + 1, 7]⟩
        = some (((⟨true, [5, 2 ^ 61 + 1, 7]⟩ : Bignum).toInt w64).sign
          * (roundBits dblMantDig ((⟨true, [5, 2 ^ 61 + 1, 7]⟩ : Bignum).toInt w64).natAbs : Nat)) := by
  refine (bignum_to_double_rounds ⟨by decide, by decide, by decide⟩ (by decide +kernel)).mpr ?_
  intro h
  exact absurd h.1 (by decide)

/-- **All the bits of a `double` in the leading digit, and all the bits of the one below it**: the
result is not the power of two it should be, but the leading digit alone. -/
theorem bignum_to_double_skips :
    (⟨false, [2 ^ 62 - 1, 2 ^ 53 - 1]⟩ : Bignum).WellFormed w64
      ∧ roundBits dblMantDig ((⟨false, [2 ^ 62 - 1, 2 ^ 53 - 1]⟩ : Bignum).toInt w64).natAbs = 2 ^ 115
      ∧ bignumToDouble w64 ⟨false, [2 ^ 62 - 1, 2 ^ 53 - 1]⟩
          = some ((2 ^ 53 - 1) * 2 ^ 62)
      ∧ ((2 ^ 53 - 1) * 2 ^ 62 : Int) ≠ 2 ^ 115 :=
  ⟨⟨by decide, by decide, by decide⟩, by decide, by decide +kernel, by decide⟩

end MitScheme
