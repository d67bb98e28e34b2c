import MitScheme.Runtime.Numerals

/-!
# What is printed is read back

All ways of printing give the numeral of the number. A part that is not the leftmost one is padded to the number of digits
that the power above it stands for, and the powers in the stack cover the number, whether or not the last of them has been
squared.
-/

namespace MitScheme.Numerals

open List

open QuotedPrintable (digitToChar digitValue)

/-- The digits of a number, none of zero. -/
def digitChars (radix n : Nat) : List Char := ((Nat.digits radix n).reverse).map digitToChar

/-- The usual numeral of a number. -/
def numeral (radix : Nat) (number : Int) : List Char :=
  if number = 0 then ['0']
  else if number < 0 then '-' :: digitChars radix number.natAbs
  else digitChars radix number.natAbs

/-- The digits of a number behind as many zeros as fill the width. -/
def padded (radix width n : Nat) : List Char :=
  List.replicate (width - (Nat.digits radix n).length) '0' ++ digitChars radix n

@[simp] theorem digitChars_zero (radix : Nat) : digitChars radix 0 = [] := by simp [digitChars]

@[simp] theorem padded_zero_width (radix n : Nat) : padded radix 0 n = digitChars radix n := by simp [padded]

theorem digitChars_length (radix n : Nat) : (digitChars radix n).length = (Nat.digits radix n).length := by
  simp [digitChars]

variable {w : Word} {radix : Radix}

theorem padded_length {width n : Nat} (h : n < radix.val ^ width) : (padded radix width n).length = width := by
  have hlength := (Nat.digits_length_le_iff radix.property.1 n).mpr h
  rw [padded, length_append, length_replicate, digitChars_length]
  omega

theorem digitChars_succ {n : Nat} (h : n ≠ 0) :
    digitChars radix n = digitChars radix (n / radix.val) ++ [digitToChar (n % radix.val)] := by
  rw [digitChars, Nat.digits_def' radix.property.1 (Nat.pos_of_ne_zero h), reverse_cons, map_append]
  rfl

theorem padded_split (m k value : Nat) :
    padded radix (m + k) value = padded radix k (value / radix.val ^ m) ++ padded radix m (value % radix.val ^ m) := by
  have hradix := radix.property.1
  have hpos : 0 < radix.val ^ m := Nat.pow_pos (by omega)
  have hmod := Nat.mod_lt value hpos
  have hlength := (Nat.digits_length_le_iff hradix (value % radix.val ^ m)).mpr hmod
  by_cases hleft : value / radix.val ^ m = 0
  · have hvalue : value % radix.val ^ m = value := Nat.mod_eq_of_lt (Nat.lt_of_div_eq_zero hpos hleft)
    rw [hvalue] at hlength
    rw [hleft, hvalue]
    simp only [padded, digitChars_zero, Nat.digits_zero, length_nil, append_nil, Nat.sub_zero]
    rw [← append_assoc, replicate_append_replicate]
    congr 2
    omega
  · have hdigits := Nat.digits_append_zeroes_append_digits (k := m - (Nat.digits radix.val (value % radix.val ^ m)).length)
      (n := value % radix.val ^ m) hradix (Nat.pos_of_ne_zero hleft)
    rw [Nat.add_sub_cancel' hlength, Nat.mod_add_div] at hdigits
    simp only [padded, digitChars, ← hdigits, reverse_append, map_append, reverse_replicate,
      map_replicate, length_append, length_replicate, ← append_assoc]
    rw [Nat.add_sub_cancel' hlength, Nat.add_sub_add_left]
    rfl

theorem digitChars_split {m value : Nat} (h : value / radix.val ^ m ≠ 0) :
    digitChars radix value = digitChars radix (value / radix.val ^ m) ++ padded radix m (value % radix.val ^ m) := by
  have hsplit : padded radix (m + 0) value = _ := padded_split m 0 value
  rw [padded_zero_width] at hsplit
  rw [← hsplit, padded, Nat.add_zero]
  have hlarge : radix.val ^ m ≤ value := by
    by_contra hlt
    exact h (Nat.div_eq_of_lt (not_le.mp hlt))
  have hlength : ¬(Nat.digits radix.val value).length ≤ m := by
    rw [Nat.digits_length_le_iff radix.property.1]
    omega
  rw [show m - (Nat.digits radix.val value).length = 0 by omega, replicate_zero, nil_append]

theorem printFixnumLoop_eq (minDigits n nDigits : Nat) (tail : List Char) :
    printFixnumLoop radix minDigits n nDigits tail =
      List.replicate (minDigits - (nDigits + (Nat.digits radix n).length)) '0' ++ digitChars radix n ++ tail := by
  fun_induction printFixnumLoop radix minDigits n nDigits tail with
  | case1 n nDigits tail hn ih =>
      rw [ih, digitChars_succ hn, Nat.digits_def' radix.property.1 (Nat.pos_of_ne_zero hn), length_cons]
      simp only [append_assoc, singleton_append]
      congr 2
      omega
  | case2 n nDigits tail hn hless ih =>
      rw [ih, not_not.mp hn]
      simp only [Nat.digits_zero, length_nil, Nat.add_zero, digitChars_zero, append_nil]
      rw [show minDigits - nDigits = minDigits - (nDigits + 1) + 1 by omega, replicate_succ', append_assoc]
      rfl
  | case3 n nDigits tail hn hless =>
      rw [not_not.mp hn]
      simp only [Nat.digits_zero, length_nil, Nat.add_zero, digitChars_zero, append_nil]
      rw [show minDigits - nDigits = 0 by omega]
      rfl

theorem printFixnum_eq (n minDigits : Nat) (tail : List Char) :
    printFixnum radix n minDigits tail = padded radix minDigits n ++ tail := by
  rw [printFixnum, printFixnumLoop_eq, Nat.zero_add]
  rfl

theorem SplitInfo.div_ne_zero (split : SplitInfo w radix) {n : Nat} (h : fixnumP w n = false) : n / split.factor ≠ 0 := by
  have hfixnum := split.fixnum
  simp only [fixnumP, decide_eq_true_eq, decide_eq_false_iff_not] at h hfixnum
  have hpos := split.two_le
  exact (Nat.div_pos (by omega) (by omega)).ne'

theorem printMedium_eq (split : SplitInfo w radix) (value : Nat) :
    printMedium w radix value split = digitChars radix value := by
  have hloop : ∀ n tail, printMediumLoop w radix split n tail = digitChars radix n ++ tail := by
    intro n tail
    fun_induction printMediumLoop w radix split n tail with
    | case1 n tail hfixnum => rw [printFixnum_eq, padded_zero_width]
    | case2 n tail hfixnum ih =>
        have hleft := split.div_ne_zero (Bool.eq_false_iff.mpr hfixnum)
        rw [ih, printFixnum_eq, ← append_assoc]
        rw [split.factor_eq] at hleft ⊢
        rw [← digitChars_split hleft]
  rw [printMedium, hloop, append_nil]

/-! ## Large numbers -/

/-- The powers in a stack halve a number of so many digits again and again, down to groups that are fixnums. -/
def Covers (split : SplitInfo w radix) : List Quantum → Nat → Prop
  | [], digits => digits = split.digits
  | power :: rest, digits => digits = 2 * (digits / 2) ∧ power.val = radix.val ^ (digits / 2) ∧ Covers split rest (digits / 2)

theorem Covers.push {split : SplitInfo w radix} {stack : List Quantum} {digits : Nat} {quantum : Quantum}
    (h : Covers split stack digits) (hquantum : quantum.val = radix.val ^ digits) :
    Covers split (quantum :: stack) (2 * digits) := by
  rw [Covers, Nat.mul_div_cancel_left digits (by omega)]
  exact ⟨rfl, hquantum, h⟩

theorem separate_eq {split : SplitInfo w radix} {stack : List Quantum} {digits : Nat} (hcovers : Covers split stack digits)
    (leftmost : Bool) {value : Nat} (hvalue : value < radix.val ^ digits) (tail : List Char) :
    separate w radix leftmost value stack digits tail =
      some (padded radix (if leftmost then 0 else digits) value ++ tail) := by
  induction stack generalizing leftmost value digits tail with
  | nil =>
      have hfixnum : fixnumP w value = true := by
        have hfactor := split.fixnum
        rw [split.factor_eq, ← hcovers] at hfactor
        simp only [fixnumP, decide_eq_true_eq] at hfactor ⊢
        omega
      rw [separate, if_pos hfixnum, printFixnum_eq]
  | cons power rest ih =>
      obtain ⟨heven, hpower, hrest⟩ := hcovers
      have hpos : 0 < power.val := by
        omega
      have hmod := Nat.mod_lt value hpos
      have hsquare : value < power.val * power.val := by
        calc value < radix.val ^ digits := hvalue
          _ = power.val * power.val := by rw [hpower, ← pow_add, ← two_mul, ← heven]
      have hdiv : value / power.val < power.val := Nat.div_lt_of_lt_mul hsquare
      rw [separate]
      split
      · rw [printFixnum_eq]
      · simp only
        split
        · -- The number lies below the power.
          rename_i hzero
          obtain ⟨hleftmost, hzero⟩ := Bool.and_eq_true_iff.mp hzero
          have hless : value % power.val = value := Nat.mod_eq_of_lt (Nat.lt_of_div_eq_zero hpos (beq_iff_eq.mp hzero))
          rw [hless] at hmod ⊢
          rw [hpower] at hmod
          rw [ih hrest true hmod, hleftmost]
          rfl
        · rename_i hzero
          rw [hpower] at hmod hdiv hzero ⊢
          rw [ih hrest false hmod]
          simp only [bind, Option.bind]
          rw [ih hrest leftmost hdiv]
          cases leftmost with
          | false =>
              simp only [Bool.false_eq_true, if_false]
              rw [← append_assoc, ← padded_split, ← two_mul, ← heven]
          | true =>
              simp only [Bool.true_and, beq_iff_eq] at hzero
              simp only [if_true, Bool.false_eq_true, if_false, padded_zero_width]
              rw [← append_assoc, ← digitChars_split hzero]

theorem fastTest_sound {quantum value : Nat} (h : fastTestToAvoidUltimateMultiply w quantum value = true) :
    value < quantum * quantum := by
  have hbase : 1 < w.radix := by
    have := w.le_half
    exact Nat.one_lt_two_pow (by rw [Word.digitLength]; omega)
  simp only [fastTestToAvoidUltimateMultiply, systemVectorLength, Bignum.length, Bignum.ofInt, Int.natAbs_natCast,
    Nat.add_sub_cancel, Bool.and_eq_true, decide_eq_true_eq] at h
  have hvalue := Nat.lt_base_pow_length_digits (b := w.radix) (m := value) hbase
  obtain ⟨k, hk⟩ : ∃ k, (Nat.digits w.radix quantum).length = k + 1 := ⟨_, (Nat.sub_add_cancel (by omega)).symm⟩
  have hquantum := DigitList.pow_length_le hbase hk
  calc value < w.radix ^ (Nat.digits w.radix value).length := hvalue
    _ ≤ w.radix ^ (k + k) := Nat.pow_le_pow_right (by omega) (by omega)
    _ = w.radix ^ k * w.radix ^ k := pow_add _ _ _
    _ ≤ quantum * quantum := Nat.mul_le_mul hquantum hquantum

theorem makePowerStack_covers {split : SplitInfo w radix} (value : Nat) (quantum : Quantum) (stack : List Quantum)
    (digits : Nat) (hcovers : Covers split stack digits) (hquantum : quantum.val = radix.val ^ digits) :
    ∃ stack' digits', Covers split stack' digits' ∧ value < radix.val ^ digits' ∧
      makePowerStack w radix value quantum stack digits = usePowerStack w radix value stack' digits' := by
  fun_induction makePowerStack w radix value quantum stack digits with
  | case1 quantum stack digits hless => exact ⟨stack, digits, hcovers, hquantum ▸ hless, rfl⟩
  | case2 quantum stack digits hless hfast =>
      refine ⟨quantum :: stack, 2 * digits, hcovers.push hquantum, ?_, rfl⟩
      rw [two_mul, pow_add, ← hquantum]
      exact fastTest_sound hfast
  | case3 quantum stack digits hless hfast ih =>
      refine ih (hcovers.push hquantum) ?_
      rw [Quantum.square, two_mul, pow_add, ← hquantum]

theorem naturalToString_eq (value : Nat) :
    naturalToString w radix value = some (if value = 0 then ['0'] else digitChars radix value) := by
  unfold naturalToString
  split
  · rw [printFixnum_eq, append_nil]
    split
    · rename_i hzero
      rw [hzero]
      simp [padded]
    · rename_i hzero
      have hlength : 0 < (Nat.digits radix.val value).length :=
        length_pos_iff.mpr (Nat.digits_ne_nil_iff_ne_zero.mpr hzero)
      rw [padded, show 1 - (Nat.digits radix.val value).length = 0 by omega]
      rfl
  · rename_i hfixnum
    have hzero : value ≠ 0 := by
      intro hzero
      rw [hzero, fixnumP, decide_eq_true (Nat.two_pow_pos _)] at hfixnum
      exact hfixnum rfl
    simp only
    split
    · rw [printMedium_eq]
    · obtain ⟨stack, digits, hcovers, hvalue, hstack⟩ := @makePowerStack_covers w radix (maximumFixnumRadixPowers w radix)
        value ⟨_, (maximumFixnumRadixPowers w radix).two_le⟩ [] _ rfl (maximumFixnumRadixPowers w radix).factor_eq
      rw [hstack, usePowerStack, separate_eq hcovers true hvalue, append_nil, if_pos rfl, padded_zero_width]

theorem intToString_eq (number : Int) : intToString w number radix = some (numeral radix number) := by
  unfold intToString numeral
  split
  · rw [naturalToString_eq, if_neg (by omega), if_neg (by omega), Option.bind_eq_bind, Option.bind_some,
      show (-number).toNat = number.natAbs by omega]
  · rw [naturalToString_eq, show number.toNat = number.natAbs by omega]
    simp only [Int.natAbs_eq_zero]

/-! ## Reading -/

theorem charToDigit_digitToChar :
    ∀ radix, radix ≤ 36 → ∀ digit < radix, charToDigit (digitToChar digit) radix = some digit := by
  decide +kernel

theorem digitToChar_plain :
    ∀ digit < 36, digitToChar digit ≠ '#' ∧ digitToChar digit ≠ '.' ∧ signP (digitToChar digit) = false := by
  decide +kernel

theorem parseDigits_digits (sign : Option Char) {digits : List Nat} (hdigits : ∀ d ∈ digits, d < radix.val)
    (integer : Nat) :
    parseDigits radix sign none (digits.map digitToChar) integer =
      finishInteger (digits.foldl (fun n d => n * radix.val + d) integer) none sign := by
  induction digits generalizing integer with
  | nil => rfl
  | cons digit digits ih =>
      have hdigit := charToDigit_digitToChar radix.val radix.property.2 digit (hdigits digit (mem_cons_self ..))
      rw [map_cons, parseDigits, hdigit]
      exact ih (fun d hd => hdigits d (mem_cons_of_mem _ hd)) _

theorem digits_first {n : Nat} (h : n ≠ 0) : ∃ first rest, digitChars radix n = digitToChar first :: rest ∧
    first < radix.val ∧ ∀ sign, parseDigits radix sign none rest first = finishInteger n none sign := by
  have hlt : ∀ d ∈ (Nat.digits radix.val n).reverse, d < radix.val :=
    fun d hd => Nat.digits_lt_base radix.property.1 (mem_reverse.mp hd)
  have hfold : (Nat.digits radix.val n).reverse.foldl (fun n d => n * radix.val + d) 0 = n := by
    rw [foldl_reverse]
    conv_rhs => rw [← Nat.ofDigits_digits radix.val n, Nat.ofDigits_eq_foldr]
    congr 1
    ext d m
    rw [Nat.cast_id, mul_comm, add_comm]
  cases hdigits : (Nat.digits radix.val n).reverse with
  | nil => exact absurd (Nat.digits_eq_nil_iff_eq_zero.mp (reverse_eq_nil_iff.mp hdigits)) h
  | cons first rest =>
      rw [hdigits] at hlt hfold
      refine ⟨first, rest.map digitToChar, ?_, hlt first (mem_cons_self ..), ?_⟩
      · rw [digitChars, hdigits, map_cons]
      · intro sign
        rw [parseDigits_digits sign (fun d hd => hlt d (mem_cons_of_mem _ hd))]
        rw [foldl_cons, Nat.zero_mul, Nat.zero_add] at hfold
        rw [hfold]

theorem parsePrefixes_plain (defaultRadix : Option Nat) {char : Char} (string : List Char) (h : char ≠ '#') :
    parsePrefixes defaultRadix none none (char :: string) = parseTopLevel defaultRadix none (char :: string) := by
  unfold parsePrefixes
  split <;> simp_all

theorem parsePrefixes_numeral (number : Int) :
    parsePrefixes (some radix.val) none none (numeral radix number) = .integer number := by
  have hradix := radix.property
  unfold numeral
  split
  · rename_i hzero
    have hdigit : charToDigit '0' radix.val = some 0 := charToDigit_digitToChar radix.val hradix.2 0 (by omega)
    rw [parsePrefixes_plain _ _ (by decide), parseTopLevel, if_neg (by decide)]
    simp only [Option.getD_some, hdigit]
    rw [hzero]
    rfl
  · obtain ⟨first, rest, hchars, hfirst, hparse⟩ := @digits_first radix number.natAbs (by omega)
    have hdigit := charToDigit_digitToChar radix.val hradix.2 first hfirst
    obtain ⟨hsharp, hdot, hsign⟩ := digitToChar_plain first (by omega)
    rw [hchars]
    split
    · rw [parsePrefixes_plain _ _ (by decide), parseTopLevel, if_pos (by decide), findLeader]
      simp only [Option.getD_some, hdigit]
      rw [hparse, finishInteger, if_pos rfl]
      congr 1
      omega
    · rw [parsePrefixes_plain _ _ hsharp, parseTopLevel, if_neg (by rw [hsign]; decide), if_neg hdot]
      simp only [Option.getD_some, hdigit]
      rw [hparse, finishInteger, if_neg (by decide)]
      congr 1
      omega

/-- Every integer is printed as its numeral in every radix, by parts that are padded to their places and by powers that
cover the number, and the number is read back from the numeral in the four radices of the parser. -/
theorem intToString_numeral (w : Word) (radix : Radix) (number : Int) :
    intToString w number radix = some (numeral radix number) ∧
    (∀ n minDigits tail, printFixnum radix n minDigits tail = padded radix minDigits n ++ tail) ∧
    (∀ value, ∃ stack digits, Covers (maximumFixnumRadixPowers w radix) stack digits ∧ value < radix.val ^ digits ∧
      makePowerStack w radix value ⟨_, (maximumFixnumRadixPowers w radix).two_le⟩ []
        (maximumFixnumRadixPowers w radix).digits = usePowerStack w radix value stack digits) ∧
    (∀ stack digits value tail, Covers (maximumFixnumRadixPowers w radix) stack digits → value < radix.val ^ digits →
      ∃ part, part.length = digits ∧ part = padded radix digits value ∧
        separate w radix false value stack digits tail = some (part ++ tail)) ∧
    stringToNumber (numeral radix number) (some radix.val) =
      if radix.val = 2 ∨ radix.val = 8 ∨ radix.val = 10 ∨ radix.val = 16 then .ok (.integer number)
      else .error (.badRange radix.val) := by
  refine ⟨intToString_eq number, printFixnum_eq, ?_, ?_, ?_⟩
  · intro value
    exact makePowerStack_covers value _ [] _ rfl (maximumFixnumRadixPowers w radix).factor_eq
  · intro stack digits value tail hcovers hvalue
    exact ⟨padded radix digits value, padded_length hvalue, rfl, separate_eq hcovers false hvalue tail⟩
  · rw [stringToNumber, parsePrefixes_numeral]

/-- The numeral of 5 in radix 3 is not read back, since the parser does not accept the radix. -/
theorem stringToNumber_radix_three : intToString w64 5 ⟨3, by decide⟩ = some ['1', '2'] ∧
    stringToNumber ['1', '2'] (some 3) ≠ .ok (.integer 5) := by
  rw [intToString_eq]
  decide

end MitScheme.Numerals
