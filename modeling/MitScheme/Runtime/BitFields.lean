import MitScheme.Microcode.IntegerShift

/-!
# Bit fields

The operations of `integer-bits.scm` on fields of the two's complement representation. The primitives that
they are made of are taken as operations on integers. Shifting by a negative count is an error, and so is a
call with a wrong number of arguments.
-/

namespace MitScheme.IntegerBits

open TwosComplement Option

def shiftLeft (n m : Int) : Option Int := if 0 ≤ m then some (n * 2 ^ m.toNat) else none

def shiftRight (n m : Int) : Option Int := if 0 ≤ m then some (n / 2 ^ m.toNat) else none

def bitMask (size position : Int) : Option Int :=
  if 0 ≤ size ∧ 0 ≤ position then some ((2 ^ size.toNat - 1) * 2 ^ position.toNat) else none

def remainder (n d : Int) : Option Int := if d = 0 then none else some (n.tmod d)

def bitwiseMerge (mask a b : Int) : Int := Int.lor (Int.land a mask) (Int.ldiff b mask)

def extractBitField (size position integer : Int) : Option Int := do
  let mask ← bitMask size 0
  let shifted ← shiftRight integer position
  some (Int.land mask shifted)

def editBitField (selector size aPosition a bPosition b : Int) : Option Int := do
  let selectorField ← extractBitField size 0 selector
  let mask ← shiftLeft selectorField aPosition
  let bField ← extractBitField size bPosition b
  let shifted ← shiftLeft bField aPosition
  some (bitwiseMerge mask a shifted)

def spliceBitField (size aPosition a bPosition b : Int) : Option Int := do
  let mask ← bitMask size aPosition
  let bField ← extractBitField size bPosition b
  let shifted ← shiftLeft bField aPosition
  some (bitwiseMerge mask a shifted)

def replaceBitField (size position integer field : Int) : Option Int := do
  let field ← extractBitField size 0 field
  let shifted ← shiftLeft field position
  let mask ← bitMask size position
  some (Int.lor shifted (Int.ldiff integer mask))

def rotateBitField (integer count start stop : Int) : Option Int := do
  let size := stop - start
  let count ← remainder count size
  let bitField ← extractBitField size start integer
  let left ← shiftLeft bitField count
  let right ← shiftRight bitField (size - count)
  replaceBitField size start integer (Int.lor left right)

/-- The loop of `bit-reverse`. -/
def bitReverseLoop : Nat → Int → Int → Option Int
  | 0, _, result => some result
  | size + 1, integer, result => do
      let rest ← shiftRight integer 1
      let shifted ← shiftLeft result 1
      bitReverseLoop size rest (Int.lor shifted (Int.land integer 1))

def bitReverse (size integer : Int) : Option Int :=
  if integer < 0 then (bitReverseLoop size.toNat (Int.lnot integer) 0).map Int.lnot
  else bitReverseLoop size.toNat integer 0

/-- `bit-reverse`, applied to some arguments. -/
def applyBitReverse : List Int → Option Int
  | [size, integer] => bitReverse size integer
  | _ => none

/-- `replace-bit-field`, applied to some arguments. -/
def applyReplaceBitField : List Int → Option Int
  | [size, position, integer, field] => replaceBitField size position integer field
  | _ => none

/-- `reverse-bit-field`. It gives one argument to `bit-reverse` and three to `replace-bit-field`. -/
def reverseBitField (integer start stop : Int) : Option Int := do
  let size := stop - start
  let field ← extractBitField size start integer
  let reversed ← applyBitReverse [field]
  applyReplaceBitField [size, start, reversed]

def odd (integer : Int) : Bool := integer % 2 ≠ 0

/-- The loop of `integer->list` without a length. -/
def integerBits (integer : Nat) (bits : List Bool) : List Bool :=
  if integer = 0 then bits else integerBits (integer / 2) (odd integer :: bits)

/-- The loop of `integer->list` with a length. -/
def integerBitsOfLength : Nat → Int → List Bool → List Bool
  | 0, _, bits => bits
  | length + 1, integer, bits => integerBitsOfLength length (integer / 2) (odd integer :: bits)

/-- `integer->list`. Without a length it does not come to an end for a negative number, which shifting never
makes zero. -/
def integerToList (integer : Int) (length : Option Int) : Option (List Bool) :=
  match length with
  | none => if integer < 0 then none else some (integerBits integer.toNat [])
  | some length => if length < 0 then none else some (integerBitsOfLength length.toNat integer [])

/-- The loop of `list->integer`. -/
def listToIntegerLoop : List Bool → Int → Option Int
  | [], integer => some integer
  | bit :: bits, integer => do
      let shifted ← shiftLeft integer 1
      listToIntegerLoop bits (Int.lor shifted (if bit then 1 else 0))

/-- `list->integer` -/
def listToInteger (bits : List Bool) : Option Int := listToIntegerLoop bits 0

theorem shiftLeft_natCast (n : Int) (m : Nat) : shiftLeft n m = some (n * 2 ^ m) := by
  rw [shiftLeft, if_pos (Int.natCast_nonneg m), Int.toNat_natCast]

theorem shiftRight_natCast (n : Int) (m : Nat) : shiftRight n m = some (n / 2 ^ m) := by
  rw [shiftRight, if_pos (Int.natCast_nonneg m), Int.toNat_natCast]

theorem bitMask_natCast (size position : Nat) :
    bitMask size position = some ((2 ^ size - 1) * 2 ^ position) := by
  rw [bitMask, if_pos ⟨Int.natCast_nonneg size, Int.natCast_nonneg position⟩, Int.toNat_natCast,
    Int.toNat_natCast]

theorem testBit_ones (size i : Nat) : ((2 : Int) ^ size - 1).testBit i = decide (i < size) := by
  have hones : (2 : Int) ^ size - 1 = Int.ofNat (2 ^ size - 1) := by
    rw [Int.ofNat_eq_natCast, Nat.cast_sub (Nat.two_pow_pos size)]
    rfl
  rw [hones]
  exact Nat.testBit_two_pow_sub_one size i

theorem testBit_mask (size position i : Nat) :
    (((2 : Int) ^ size - 1) * 2 ^ position).testBit i = decide (position ≤ i ∧ i < position + size) := by
  rw [testBit_mul_two_pow, testBit_ones, Bool.decide_and]
  by_cases hi : position ≤ i
  · have hiff : i - position < size ↔ i < position + size := by omega
    rw [decide_eq_decide.mpr hiff]
  · rw [decide_eq_false hi, Bool.false_and, Bool.false_and]

/-! ## The primitives

Where a shift fits, the microcode computes the shifts and masks. -/

/-! ## Fields -/

theorem some_eq_some_iff {x y : Int} : some x = some y ↔ ∀ i, x.testBit i = y.testBit i := by
  rw [some_inj]
  exact ⟨fun h i => by rw [h], eq_of_testBit_eq⟩

/-- **The bits of an extracted field.** -/
theorem extractBitField_natCast (size position : Nat) (x : Int) :
    ∃ field, extractBitField size position x = some field
      ∧ ∀ i, field.testBit i = (decide (i < size) && x.testBit (i + position)) := by
  refine ⟨Int.land ((2 ^ size - 1) * 2 ^ 0) (x / 2 ^ position), ?_, fun i => ?_⟩
  · have hmask := bitMask_natCast size 0
    rfl
  · rw [Int.testBit_land, testBit_mask, testBit_ediv_two_pow]
    congr 1
    exact decide_eq_decide.mpr (by omega)

theorem testBit_placed {field x : Int} {size position : Nat}
    (h : ∀ i, field.testBit i = (decide (i < size) && x.testBit (i + position))) (place i : Nat) :
    (field * 2 ^ place).testBit i
      = (decide (place ≤ i ∧ i < place + size) && x.testBit (i - place + position)) := by
  rw [testBit_mul_two_pow, h]
  by_cases hi : place ≤ i
  · have hiff : i - place < size ↔ place ≤ i ∧ i < place + size := by omega
    rw [decide_eq_true hi, Bool.true_and, decide_eq_decide.mpr hiff]
  · have hfalse : ¬ (place ≤ i ∧ i < place + size) := fun h => hi h.1
    rw [decide_eq_false hi, decide_eq_false hfalse, Bool.false_and, Bool.false_and]

/-- **The bits of a replaced field**: those of the field within it, those of the integer elsewhere. -/
theorem replaceBitField_natCast (size position : Nat) (x f : Int) :
    ∃ replaced, replaceBitField size position x f = some replaced
      ∧ ∀ i, replaced.testBit i
        = if position ≤ i ∧ i < position + size then f.testBit (i - position) else x.testBit i := by
  obtain ⟨field, hfield, hbits⟩ := extractBitField_natCast size 0 f
  rw [Nat.cast_zero] at hfield
  refine ⟨Int.lor (field * 2 ^ position) (Int.ldiff x ((2 ^ size - 1) * 2 ^ position)), ?_, fun i => ?_⟩
  · rw [replaceBitField, hfield, bind_eq_bind, bitMask_natCast]
    rfl
  · rw [Int.testBit_lor, Int.testBit_ldiff, testBit_placed hbits, testBit_mask]
    by_cases hi : position ≤ i ∧ i < position + size
    · simp [hi]
    · simp [hi]

/-- **The bits of a splice**: within the field those that were there, and nothing elsewhere. -/
theorem spliceBitField_natCast (size aPosition : Nat) (a : Int) (bPosition : Nat) (b : Int) :
    ∃ spliced, spliceBitField size aPosition a bPosition b = some spliced
      ∧ ∀ i, spliced.testBit i = (decide (aPosition ≤ i ∧ i < aPosition + size) && a.testBit i) := by
  obtain ⟨field, hfield, hbits⟩ := extractBitField_natCast size bPosition b
  refine ⟨bitwiseMerge ((2 ^ size - 1) * 2 ^ aPosition) a (field * 2 ^ aPosition), ?_, fun i => ?_⟩
  · rw [spliceBitField, bitMask_natCast, hfield, bind_eq_bind, bind_some]
    rfl
  · rw [bitwiseMerge, Int.testBit_lor, Int.testBit_land, Int.testBit_ldiff, testBit_placed hbits, testBit_mask]
    by_cases hi : aPosition ≤ i ∧ i < aPosition + size
    · simp [hi]
    · simp [hi]

theorem spliceBitField_eq_editBitField (size aPosition : Nat) (a : Int) (bPosition : Nat) (b : Int) :
    spliceBitField size aPosition a bPosition b
      = (bitMask size 0).bind fun selector => editBitField selector size aPosition a bPosition b := by
  obtain ⟨field, hfield, hbits⟩ := extractBitField_natCast size bPosition b
  obtain ⟨all, hall, hones⟩ := extractBitField_natCast size 0 ((2 ^ size - 1) * 2 ^ 0)
  have hmask := bitMask_natCast size 0
  rw [Nat.cast_zero] at hall hmask
  have hsame : all * 2 ^ aPosition = (2 ^ size - 1) * 2 ^ aPosition := by
    refine eq_of_testBit_eq fun i => ?_
    rw [testBit_placed hones, testBit_mask, testBit_mask]
    by_cases hi : aPosition ≤ i ∧ i < aPosition + size
    · simp [hi]
      omega
    · simp [hi]
  rw [hmask, bind_some, editBitField, hall, spliceBitField, hfield]
  simp only [bind_eq_bind, bind_some]
  rw [shiftLeft_natCast, shiftLeft_natCast, hsame]
  rfl

/-- The bits of a field moved up in a circle, those outside the field as they were. -/
structure Rotated (x rotated count : Int) (start size : Nat) : Prop where
  inside : ∀ i < size, rotated.testBit (start + ((i + count) % size).toNat) = x.testBit (start + i)
  outside : ∀ i, i < start ∨ start + size ≤ i → rotated.testBit i = x.testBit i

/-- **Rotating up.** -/
theorem rotateBitField_up {x count : Int} {start size k : Nat} (hsize : 0 < size)
    (hk : count.tmod size = k) :
    ∃ rotated, rotateBitField x count start ((start + size : Nat) : Int) = some rotated
      ∧ (∀ i < size, rotated.testBit (start + (i + k) % size) = x.testBit (start + i))
      ∧ ∀ i, i < start ∨ start + size ≤ i → rotated.testBit i = x.testBit i := by
  have hne : (size : Int) ≠ 0 := by omega
  have hlt : k < size := by
    have h := Int.tmod_lt_of_pos count (show (0 : Int) < size by omega)
    omega
  have hwidth : ((start + size : Nat) : Int) - start = size := by omega
  have hleft : (size : Int) - k = ((size - k : Nat) : Int) := by omega
  obtain ⟨field, hfield, hbits⟩ := extractBitField_natCast size start x
  obtain ⟨rotated, hrotated, hreplaced⟩ := replaceBitField_natCast size start x
    (Int.lor (field * 2 ^ k) (field / 2 ^ (size - k)))
  refine ⟨rotated, ?_, fun i hi => ?_, fun i hi => ?_⟩
  · rw [rotateBitField, hwidth, remainder, if_neg hne, hk]
    simp only [bind_eq_bind, bind_some]
    rw [hfield, bind_some, shiftLeft_natCast, bind_some, hleft, shiftRight_natCast,
      bind_some, hrotated]
  · have hmod : (i + k) % size < size := Nat.mod_lt _ hsize
    rw [hreplaced, if_pos (by omega), Nat.add_sub_cancel_left, Int.testBit_lor, testBit_mul_two_pow,
      testBit_ediv_two_pow, hbits, hbits]
    rcases Nat.lt_or_ge (i + k) size with hsum | hsum
    · -- the bit stays below the end of the field
      rw [Nat.mod_eq_of_lt hsum, Nat.add_sub_cancel, decide_eq_true hi,
        decide_eq_false (show ¬ i + k + (size - k) < size by omega), Nat.add_comm start]
      simp
    · have hwrap : (i + k) % size = i + k - size := by
        rw [Nat.mod_eq_sub_mod hsum, Nat.mod_eq_of_lt (by omega)]
      have hback : i + k - size + (size - k) = i := by omega
      rw [hwrap, decide_eq_false (show ¬ k ≤ i + k - size by omega), hback, decide_eq_true hi, Nat.add_comm start]
      simp
  · rw [hreplaced, if_neg (by omega)]

theorem rotateBitField_down {x count : Int} {start size : Nat} (hneg : count.tmod size < 0) :
    rotateBitField x count start ((start + size : Nat) : Int) = none := by
  have hwidth : ((start + size : Nat) : Int) - start = size := by omega
  obtain ⟨field, hfield, -⟩ := extractBitField_natCast size start x
  rw [rotateBitField, hwidth, remainder]
  split
  · rfl
  · simp only [bind_eq_bind, bind_some]
    rw [hfield, bind_some, shiftLeft, if_neg (by omega)]
    rfl

theorem tmod_nonneg_iff {count : Int} {size : Nat} :
    0 ≤ count.tmod size ↔ 0 ≤ count ∨ (size : Int) ∣ count := by
  constructor
  · intro h
    rcases Int.le_total 0 count with hpos | hneg
    · exact Or.inl hpos
    · obtain ⟨n, hn⟩ := Int.eq_ofNat_of_zero_le (Int.neg_nonneg.mpr hneg)
      have hcount : count = -(n : Int) := by omega
      rw [hcount, Int.neg_tmod] at h
      have hmod : (n : Int).tmod size = 0 := by
        have hpos := Int.tmod_nonneg (size : Int) (Int.natCast_nonneg n)
        omega
      rw [hcount]
      exact Or.inr (Int.dvd_neg.mpr (Int.dvd_of_tmod_eq_zero hmod))
  · intro h
    rcases h with hpos | hdvd
    · exact Int.tmod_nonneg _ hpos
    · exact (Int.tmod_eq_zero_of_dvd hdvd).ge

theorem rotateBitField_iff (x count : Int) (start : Nat) {size : Nat} (hsize : 0 < size) :
    (∃ rotated, rotateBitField x count start ((start + size : Nat) : Int) = some rotated
      ∧ Rotated x rotated count start size) ↔ 0 ≤ count ∨ (size : Int) ∣ count := by
  rw [← tmod_nonneg_iff]
  constructor
  · intro h
    by_contra hneg
    obtain ⟨rotated, hrotate, -⟩ := h
    rw [rotateBitField_down (by omega)] at hrotate
    cases hrotate
  · intro h
    obtain ⟨k, hk⟩ := Int.eq_ofNat_of_zero_le h
    obtain ⟨rotated, hrotate, hin, hout⟩ := @rotateBitField_up x count start size k hsize hk
    refine ⟨rotated, hrotate, fun i hi => ?_, hout⟩
    have hmod : ((i + count) % size).toNat = (i + k) % size := by
      have hcount : count = size * count.tdiv size + k := by
        rw [← hk]
        exact (Int.mul_tdiv_add_tmod count size).symm
      have hsum : ((i : Int) + count) % size = ((i + k : Nat) : Int) % size := by
        rw [hcount, Int.natCast_add]
        have hcomm : (i : Int) + (size * count.tdiv size + k) = i + k + size * count.tdiv size := by ring
        rw [hcomm, Int.add_mul_emod_self_left]
      rw [hsum, ← Int.natCast_emod, Int.toNat_natCast]
    rw [hmod]
    exact hin i hi

theorem rotateBitField_back (x count : Int) (start : Nat) {size : Nat} (hsize : 0 < size) :
    ((rotateBitField x count start ((start + size : Nat) : Int)).bind fun rotated =>
        rotateBitField rotated (-count) start ((start + size : Nat) : Int)) = some x
      ↔ (size : Int) ∣ count := by
  have hstay : ∀ x count : Int, (size : Int) ∣ count →
      rotateBitField x count start ((start + size : Nat) : Int) = some x := by
    intro x count hdvd
    obtain ⟨rotated, hrotate, hin, hout⟩ := @rotateBitField_up x count start size 0 hsize
      (Int.tmod_eq_zero_of_dvd hdvd)
    rw [hrotate, some_eq_some_iff]
    intro i
    by_cases hi : i < start ∨ start + size ≤ i
    · exact hout i hi
    · have hbit := hin (i - start) (by omega)
      rw [Nat.add_zero, Nat.mod_eq_of_lt (by omega), Nat.add_sub_cancel' (by omega)] at hbit
      exact hbit
  constructor
  · intro h
    obtain ⟨rotated, hthere, hback⟩ := bind_eq_some_iff.mp h
    have hpos : 0 ≤ count.tmod size := by
      by_contra hneg
      rw [rotateBitField_down (by omega)] at hthere
      cases hthere
    have hneg : 0 ≤ (-count).tmod size := by
      by_contra hneg
      rw [rotateBitField_down (by omega)] at hback
      cases hback
    rw [Int.neg_tmod] at hneg
    exact Int.dvd_of_tmod_eq_zero (by omega)
  · intro h
    rw [hstay x count h, bind_some, hstay x (-count) (Int.dvd_neg.mpr h)]

/-! ## Reversing and lists -/

theorem reverseBitField_eq_none (x start stop : Int) : reverseBitField x start stop = none := by
  unfold reverseBitField
  dsimp only
  cases h : extractBitField (stop - start) start x with
  | none => rfl
  | some field => rfl

theorem odd_natCast (n : Nat) : odd n = decide (n % 2 = 1) := by
  exact decide_eq_decide.mpr (by omega)

theorem lor_bit (n : Int) (bit : Bool) : Int.lor (n * 2 ^ 1) (if bit then 1 else 0) = 2 * n + bit.toNat := by
  have hzero : Int.lor n 0 = n := by
    refine eq_of_testBit_eq fun i => ?_
    rw [Int.testBit_lor, testBit_zero, Bool.or_false]
  have hshift : n * 2 ^ 1 = Int.bit false n := by
    rw [Int.bit_val, Bool.cond_false]
    ring
  have hbit : (if bit then 1 else 0 : Int) = Int.bit bit 0 := by
    cases bit <;> rfl
  rw [hshift, hbit, Int.lor_bit, hzero, Int.bit_val]
  cases bit <;> rfl

theorem listToIntegerLoop_cons (bit : Bool) (bits : List Bool) (n : Int) :
    listToIntegerLoop (bit :: bits) n = listToIntegerLoop bits (2 * n + bit.toNat) := by
  have hshift := shiftLeft_natCast n 1
  rw [Nat.cast_one] at hshift
  rw [listToIntegerLoop, hshift, bind_eq_bind, bind_some, lor_bit]

theorem listToIntegerLoop_integerBits (n : Nat) (bits : List Bool) :
    listToIntegerLoop (integerBits n bits) 0 = listToIntegerLoop bits n := by
  induction n, bits using integerBits.induct with
  | case1 bits =>
      rw [integerBits]
      rfl
  | case2 n bits hn ih =>
      have hvalue : (2 * ((n / 2 : Nat) : Int) + (odd n).toNat : Int) = n := by
        rw [odd_natCast]
        by_cases hodd : n % 2 = 1
        · rw [decide_eq_true hodd, Bool.toNat_true]
          omega
        · rw [decide_eq_false hodd, Bool.toNat_false]
          omega
      rw [integerBits, if_neg hn, ih, listToIntegerLoop_cons, hvalue]

/-- **The bits of a number, put together.** -/
theorem listToInteger_integerToList (n : Nat) :
    (integerToList n none).bind listToInteger = some (n : Int) := by
  have hloop := listToIntegerLoop_integerBits n []
  rw [integerToList, if_neg (by omega), bind_some, Int.toNat_natCast, listToInteger, hloop]
  rfl

theorem listToIntegerLoop_append (bits : List Bool) (bit : Bool) :
    ∀ n : Int, listToIntegerLoop (bits ++ [bit]) n
      = (listToIntegerLoop bits n).map fun m : Int => 2 * m + bit.toNat := by
  induction bits with
  | nil =>
      intro n
      rw [List.nil_append, listToIntegerLoop_cons]
      rfl
  | cons first bits ih =>
      intro n
      rw [List.cons_append, listToIntegerLoop_cons, ih, listToIntegerLoop_cons]

theorem integerBitsOfLength_listToInteger (bits : List Bool) :
    ∃ n, listToInteger bits = some n
      ∧ ∀ rest, integerBitsOfLength bits.length n rest = bits ++ rest := by
  induction bits using List.reverseRecOn with
  | nil => exact ⟨0, rfl, fun _ => rfl⟩
  | append_singleton bits bit ih =>
      obtain ⟨n, hn, hbits⟩ := ih
      have hlast := listToIntegerLoop_append bits bit 0
      rw [show listToIntegerLoop bits 0 = some n from hn] at hlast
      refine ⟨2 * n + bit.toNat, hlast, fun rest => ?_⟩
      have hhalf : (2 * n + bit.toNat : Int) / 2 = n := by
        cases bit
        · rw [Bool.toNat_false]
          omega
        · rw [Bool.toNat_true]
          omega
      have hodd : odd (2 * n + bit.toNat) = bit := by
        unfold odd
        cases bit
        · simp
        · simp [Int.add_emod]
      rw [List.length_append, List.length_singleton, integerBitsOfLength, hhalf, hodd, hbits]
      simp

/-- **A list of bits, taken apart by its length.** -/
theorem integerToList_listToInteger (bits : List Bool) :
    ((listToInteger bits).bind fun n => integerToList n (some bits.length)) = some bits := by
  obtain ⟨n, hn, hbits⟩ := integerBitsOfLength_listToInteger bits
  rw [hn, bind_some, integerToList, if_neg (by omega), Int.toNat_natCast, hbits, List.append_nil]

end MitScheme.IntegerBits
