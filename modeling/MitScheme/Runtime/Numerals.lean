import MitScheme.Microcode.BignumProof
import MitScheme.Runtime.QuotedPrintable

/-!
# Numerals

How `arith.scm` prints an integer and how `numpar.scm` reads it. A number is printed in one of three ways: a fixnum digit
by digit, a medium number in groups of digits that are fixnums, and a large number by a stack of powers of the radix, each
the square of the one below it, that cut the number into halves.
-/

namespace MitScheme.Numerals

open QuotedPrintable (digitToChar digitValue)

/-! ## Printing -/

/-- The radices that numbers are printed in. -/
abbrev Radix := { radix : Nat // 2 ≤ radix ∧ radix ≤ 36 }

variable (w : Word)

/-- `fix:fixnum?`, of a number that is not negative. -/
def fixnumP (n : Nat) : Bool := n < 2 ^ w.fixnumLength

/-- `system-vector-length` of a bignum: a word for the sign and the length, and the digits. -/
def systemVectorLength (n : Nat) : Nat := (Bignum.ofInt w n).length + 1

/-- An element of `*maximum-fixnum-radix-powers*`: the largest power of the radix that is a fixnum. -/
structure SplitInfo (radix : Radix) where
  digits : Nat
  factor : Nat
  factor_eq : factor = radix.val ^ digits
  fixnum : fixnumP w factor = true
  maximal : fixnumP w (factor * radix.val) = false

/-- `loop` in `initialize-*maximum-fixnum-radix-powers*!`. -/
def radixPowers (radix : Radix) (digits factor : Nat) (hfactor : factor = radix.val ^ digits)
    (hfixnum : fixnumP w factor = true) : SplitInfo w radix :=
  if h : fixnumP w (factor * radix.val) = true then
    radixPowers radix (digits + 1) (factor * radix.val) (by rw [hfactor, pow_succ]) h
  else ⟨digits, factor, hfactor, hfixnum, Bool.eq_false_iff.mpr h⟩
termination_by 2 ^ w.fixnumLength - factor
decreasing_by
  have hlarger : factor < factor * radix.val :=
    lt_mul_of_one_lt_right (hfactor ▸ Nat.pow_pos (by have := radix.property.1; omega)) radix.property.1
  simp only [fixnumP, decide_eq_true_eq] at h
  omega

theorem radix_fixnum (radix : Radix) : fixnumP w radix.val = true := by
  have hlength : 7 ≤ w.fixnumLength := by
    have := w.le_half
    simp only [Word.fixnumLength, Word.datumLength, Word.objectLength, Word.digitLength]
    omega
  have hlimit : 2 ^ 7 ≤ 2 ^ w.fixnumLength := Nat.pow_le_pow_right (by omega) hlength
  rw [fixnumP, decide_eq_true_eq]
  omega

/-- `*maximum-fixnum-radix-powers*`, at a radix. -/
def maximumFixnumRadixPowers (radix : Radix) : SplitInfo w radix :=
  radixPowers w radix 0 1 (pow_zero _).symm (by
    have hradix := radix_fixnum w radix
    have := radix.property.1
    rw [fixnumP, decide_eq_true_eq] at hradix ⊢
    omega)

variable {w} in
theorem SplitInfo.two_le {radix : Radix} (split : SplitInfo w radix) : 2 ≤ split.factor := by
  have hradix := radix.property.1
  have hdigits : split.digits ≠ 0 := by
    intro hzero
    have hmaximal := split.maximal
    rw [split.factor_eq, hzero, pow_zero, one_mul, radix_fixnum] at hmaximal
    cases hmaximal
  rw [split.factor_eq]
  calc 2 ≤ radix.val := hradix
    _ ≤ radix.val ^ split.digits := Nat.le_self_pow hdigits _

/-- `loop` in `print-fixnum`. -/
def printFixnumLoop (radix : Radix) (minDigits n nDigits : Nat) (tail : List Char) : List Char :=
  if n ≠ 0 then printFixnumLoop radix minDigits (n / radix.val) (nDigits + 1) (digitToChar (n % radix.val) :: tail)
  else if nDigits < minDigits then printFixnumLoop radix minDigits n (nDigits + 1) ('0' :: tail)
  else tail
termination_by (n, minDigits - nDigits)
decreasing_by
  · exact Prod.Lex.left _ _ (Nat.div_lt_self (by omega) radix.property.1)
  · exact Prod.Lex.right _ (by omega)

def printFixnum (radix : Radix) (n minDigits : Nat) (tail : List Char) : List Char :=
  printFixnumLoop radix minDigits n 0 tail

/-- `loop` in `print-medium`. -/
def printMediumLoop (radix : Radix) (split : SplitInfo w radix) (n : Nat) (tail : List Char) : List Char :=
  if fixnumP w n then printFixnum radix n 0 tail
  else printMediumLoop radix split (n / split.factor) (printFixnum radix (n % split.factor) split.digits tail)
termination_by n
decreasing_by
  rename_i hfixnum
  refine Nat.div_lt_self (Nat.pos_of_ne_zero ?_) split.two_le
  intro hzero
  rw [hzero, fixnumP, decide_eq_true (Nat.two_pow_pos _)] at hfixnum
  exact hfixnum rfl

def printMedium (radix : Radix) (value : Nat) (split : SplitInfo w radix) : List Char :=
  printMediumLoop w radix split value []

def fastTestToAvoidUltimateMultiply (quantum value : Nat) : Bool :=
  !fixnumP w quantum && systemVectorLength w value - 1 < (systemVectorLength w quantum - 1) * 2 - 1

/-- A divisor in the stack of powers. -/
abbrev Quantum := { quantum : Nat // 2 ≤ quantum }

/-- `quantum` squared. -/
def Quantum.square (quantum : Quantum) : Quantum :=
  ⟨quantum.val * quantum.val, by have := quantum.property; nlinarith⟩

/-- `separate` in `use-power-stack`. Nothing is returned when the stack has no power left for a number that is not a
fixnum. -/
def separate (radix : Radix) (leftmost : Bool) (value : Nat) (stack : List Quantum) (nDigits : Nat) (tail : List Char) :
    Option (List Char) :=
  if fixnumP w value then some (printFixnum radix value (if leftmost then 0 else nDigits) tail)
  else
    match stack with
    | [] => none
    | power :: rest =>
        let nextLeft := value / power.val
        let remainder := value % power.val
        if leftmost && nextLeft == 0 then separate radix true remainder rest (nDigits / 2) tail
        else do
          let tail ← separate radix false remainder rest (nDigits / 2) tail
          separate radix leftmost nextLeft rest (nDigits / 2) tail
termination_by structural stack

def usePowerStack (radix : Radix) (value : Nat) (stack : List Quantum) (digits : Nat) : Option (List Char) :=
  separate w radix true value stack digits []

def makePowerStack (radix : Radix) (value : Nat) (quantum : Quantum) (stack : List Quantum) (nDigits : Nat) :
    Option (List Char) :=
  if value < quantum.val then usePowerStack w radix value stack nDigits
  else if fastTestToAvoidUltimateMultiply w quantum.val value then
    usePowerStack w radix value (quantum :: stack) (2 * nDigits)
  else makePowerStack radix value quantum.square (quantum :: stack) (2 * nDigits)
termination_by value + 1 - quantum.val
decreasing_by
  have htwo := quantum.property
  have : quantum.val < quantum.val * quantum.val := by nlinarith
  simp only [Quantum.square]
  omega

/-- `n>0` in `int:->string`. -/
def naturalToString (radix : Radix) (value : Nat) : Option (List Char) :=
  if fixnumP w value then some (printFixnum radix value 1 [])
  else
    let split := maximumFixnumRadixPowers w radix
    if systemVectorLength w value < 10 then some (printMedium w radix value split)
    else makePowerStack w radix value ⟨split.factor, split.two_le⟩ [] split.digits

/-- `int:->string` -/
def intToString (number : Int) (radix : Radix) : Option (List Char) :=
  if number < 0 then do
    let digits ← naturalToString w radix (-number).toNat
    some ('-' :: digits)
  else naturalToString w radix number.toNat

/-! ## Reading -/

/-- `char->digit` -/
def charToDigit (char : Char) (radix : Nat) : Option Nat :=
  match digitValue char with
  | some digit => if digit < radix then some digit else none
  | none =>
      if 10 < radix then
        if 'A'.toNat ≤ char.toNat ∧ char.toNat - ('A'.toNat - 10) < radix then
          some (char.toNat - ('A'.toNat - 10))
        else if 'a'.toNat ≤ char.toNat ∧ char.toNat - ('a'.toNat - 10) < radix then
          some (char.toNat - ('a'.toNat - 10))
        else none
      else none

inductive Exactness where
  | exact
  | inexact
  | implicitInexact
deriving DecidableEq

inductive ParseError where
  | badRange (radix : Nat)
deriving DecidableEq

/-- What a text is read as. -/
inductive Reading where
  | integer (n : Int)
  | notNumber
  /-- The text leads to the parts of the parser that read fractions, decimals, complex numbers and inexact numbers.
  What these make of it is left out. -/
  | notExactInteger
deriving DecidableEq

/-- `sign?` -/
def signP (char : Char) : Bool := char = '+' || char = '-'

/-- `i?` -/
def iP (char : Char) : Bool := char = 'i' || char = 'I'

/-- `exponent-marker?` -/
def exponentMarkerP (char : Char) : Bool := char ∈ "eEsSfFdDlL".toList

def finishInteger (integer : Nat) (exactness : Option Exactness) (sign : Option Char) : Reading :=
  match exactness with
  | some .inexact | some .implicitInexact => .notExactInteger
  | none | some .exact => .integer (if sign = some '-' then -integer else integer)

/-- `parse-complex`, at a character that is left. -/
def parseComplex (char : Char) (string : List Char) (sign : Option Char) : Reading :=
  if signP char then .notExactInteger
  else if char = '@' then .notExactInteger
  else if iP char then (if sign.isSome && string.isEmpty then .notExactInteger else .notNumber)
  else .notNumber

/-- The continuation of `parse-digits` in `parse-integer`. -/
def parseIntegerEnd (radix : Nat) (sign : Option Char) (string : List Char) (integer : Nat)
    (exactness : Option Exactness) : Reading :=
  match string with
  | [] => finishInteger integer exactness sign
  | char :: string =>
      if char = '/' then .notExactInteger
      else if char = '.' then (if radix = 10 then .notExactInteger else .notNumber)
      else if exponentMarkerP char then (if radix = 10 then .notExactInteger else .notNumber)
      else parseComplex char string sign

/-- `parse-digits`, where a digit that is not known makes the numeral inexact. -/
def parseDigits (radix : Nat) (sign : Option Char) (exactness : Option Exactness) : List Char → Nat → Reading
  | [], integer => parseIntegerEnd radix sign [] integer exactness
  | char :: string, integer =>
      match charToDigit char radix with
      | some digit => parseDigits radix sign exactness string (integer * radix + digit)
      | none =>
          if char = '#' then
            parseIntegerEnd radix sign (string.dropWhile (· = '#'))
              (integer * radix ^ (1 + (string.takeWhile (· = '#')).length)) (some (exactness.getD .implicitInexact))
          else parseIntegerEnd radix sign (char :: string) integer exactness

def parseDecimal1 (string : List Char) : Reading :=
  match string with
  | [] => .notNumber
  | char :: _ => if (charToDigit char 10).isSome then .notExactInteger else .notNumber

def findLeader (radix : Nat) (sign : Char) (exactness : Option Exactness) : List Char → Reading
  | [] => .notNumber
  | char :: string =>
      match charToDigit char radix with
      | some digit => parseDigits radix (some sign) exactness string digit
      | none =>
          if char = '.' then (if radix = 10 then parseDecimal1 string else .notNumber)
          else if iP char then (if string.isEmpty then .notExactInteger else .notNumber)
          else .notNumber

def parseTopLevel (radix : Option Nat) (exactness : Option Exactness) : List Char → Reading
  | [] => .notNumber
  | char :: string =>
      if signP char then findLeader (radix.getD 10) char exactness string
      else if char = '.' then (if radix.getD 10 = 10 then parseDecimal1 string else .notNumber)
      else
        match charToDigit char (radix.getD 10) with
        | some digit => parseDigits (radix.getD 10) none exactness string digit
        | none => .notNumber

/-- `loop` in `parse-number`, over the prefixes of a numeral. -/
def parsePrefixes (defaultRadix : Option Nat) (exactness : Option Exactness) (radix : Option Nat) : List Char → Reading
  | [] => .notNumber
  | ['#'] => .notNumber
  | '#' :: char :: string =>
      let doRadix (r : Nat) :=
        if radix.isSome then .notNumber else parsePrefixes defaultRadix exactness (some r) string
      let doExactness (e : Exactness) :=
        if exactness.isSome then .notNumber else parsePrefixes defaultRadix (some e) radix string
      if char = 'b' ∨ char = 'B' then doRadix 2
      else if char = 'o' ∨ char = 'O' then doRadix 8
      else if char = 'd' ∨ char = 'D' then doRadix 10
      else if char = 'x' ∨ char = 'X' then doRadix 16
      else if char = 'e' ∨ char = 'E' then doExactness .exact
      else if char = 'i' ∨ char = 'I' then doExactness .inexact
      else .notNumber
  | char :: string => parseTopLevel (radix <|> defaultRadix) exactness (char :: string)

/-- `string->number`, of a whole string. -/
def stringToNumber (string : List Char) (radix : Option Nat) : Except ParseError Reading :=
  match radix with
  | none => .ok (parsePrefixes none none none string)
  | some r =>
      if r = 2 ∨ r = 8 ∨ r = 10 ∨ r = 16 then .ok (parsePrefixes (some r) none none string)
      else .error (.badRange r)

end MitScheme.Numerals
