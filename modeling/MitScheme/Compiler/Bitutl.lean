import Mathlib.Tactic.Linarith

/-!
# Assembler utilities

`bitutl.scm` and `symtab.scm`. While branches are being relaxed the address of a label is
known only to lie between two numbers. An address is then a point with a least and a greatest
value, and what an expression says about addresses is a sum of multiples of the segments
between successive points.

Of the operators only `+` and `-` are kept, which is what the instruction tables use.
-/

namespace MitScheme.Assembler

abbrev Bits := List Bool

/-- What the assembler signals. -/
inductive Failure (Name : Type) where
  | redefiningSymbol (key : Name)
  | undefinedKey (key : Name)
  | noPcDefined
  | notAMultiple (dividend divisor : Int)
  | divideByZero
  | badVariableWidth
  | cannotBeResolved
  | phaseError
  | badPadding
  | badRange
deriving DecidableEq

/-! ## Machine dependencies -/

/-- What `assmd.scm` and `machin.scm` say of a machine. Instructions end at multiples of the
addressing granularity, so the maximum padding stops short of an object by that much. -/
structure Target where
  addressingGranularity : Nat
  schemeObjectWidth : Nat
  blockOffsetWidth : Nat
  maximumBlockOffset : Int
  blockOffsetToBitString : Int → Bool → Option Bits
  paddingString : Bits
  maximumPaddingLength : Nat
  schemeObjectWidth_pos : 0 < schemeObjectWidth
  granularity_dvd : addressingGranularity ∣ schemeObjectWidth
  granularity_dvd_padding : addressingGranularity ∣ maximumPaddingLength
  padding_suffices : schemeObjectWidth ≤ maximumPaddingLength + addressingGranularity
  paddingString_ne : paddingString ≠ []
  blockOffset_length : ∀ offset start bits,
    blockOffsetToBitString offset start = some bits → bits.length = blockOffsetWidth

/-- The low bits of a number, the lowest first. -/
def lowBits (width n : Nat) : Bits := (List.range width).map n.testBit

/-- `unsigned-integer->bit-string` -/
def unsignedIntegerToBitString (width : Nat) (n : Int) : Option Bits :=
  if 0 ≤ n ∧ n < 2 ^ width then some (lowBits width n.toNat) else none

theorem unsignedIntegerToBitString_length {width : Nat} {n : Int} {bits : Bits}
    (h : unsignedIntegerToBitString width n = some bits) : bits.length = width := by
  unfold unsignedIntegerToBitString at h
  split at h
  · cases h
    simp [lowBits]
  · cases h

/-- `machines/i386/assmd.scm`. The padding is made of `HLT` instructions. -/
def i386 : Target where
  addressingGranularity := 8
  schemeObjectWidth := 32
  blockOffsetWidth := 16
  maximumBlockOffset := 2 ^ 15 - 1
  blockOffsetToBitString offset start :=
    unsignedIntegerToBitString 16 (2 * offset + if start then 0 else 1)
  paddingString := lowBits 8 0xf4
  maximumPaddingLength := 24
  schemeObjectWidth_pos := by decide
  granularity_dvd := by decide
  granularity_dvd_padding := by decide
  padding_suffices := by decide
  paddingString_ne := by decide
  blockOffset_length _ _ _ h := unsignedIntegerToBitString_length h

variable (t : Target)

/-- `starting-pc`: after the vector header and the header of the code section. -/
def startingPc : Int := 2 * t.schemeObjectWidth

def paranoidQuotient {Name : Type} (dividend divisor : Int) : Except (Failure Name) Int :=
  if dividend % divisor = 0 then .ok (dividend / divisor)
  else .error (.notAMultiple dividend divisor)

/-- `->machine-pc` -/
def toMachinePc {Name : Type} (pc : Int) : Except (Failure Name) Int :=
  paranoidQuotient pc t.addressingGranularity

/-- `->bitstring-pc` -/
def toBitstringPc (pc : Int) : Int := pc * t.addressingGranularity

def paddify (pcVal remdr divsr : Int) : Int :=
  let aremdr := pcVal.tmod divsr
  pcVal + if aremdr ≤ remdr then remdr - aremdr else remdr + (divsr - aremdr)

def finalPad (pcvalue : Int) : Int := paddify pcvalue 0 t.schemeObjectWidth

/-! ## Segments

A segment consists of an ending point and a coefficient. A segset is a list of segments, in
order from least to greatest, with an implicit starting point of zero. -/

structure Point where
  min : Int
  max : Int
deriving DecidableEq, Repr

structure Segment where
  point : Point
  coeff : Int
deriving DecidableEq, Repr

def consSegset (point : Point) (coeff : Int) : List Segment → List Segment
  | [] => if coeff = 0 then [] else [⟨point, coeff⟩]
  | s :: segset => if coeff = s.coeff then s :: segset else ⟨point, coeff⟩ :: s :: segset

def segsetScale (b : List Segment) (c : Int) : List Segment :=
  b.map fun s => ⟨s.point, s.coeff * c⟩

def segsetNegate (b : List Segment) : List Segment := segsetScale b (-1)

/-- One segment of the first segset against the second. `rest` merges the segments after it. -/
def segsetMergeFrom (op : Int → Int → Int) (s : Segment) (a : List Segment)
    (rest : List Segment → List Segment) : List Segment → List Segment
  | [] => s :: a
  | t :: b =>
      if s.point.min < t.point.min then
        consSegset s.point (op s.coeff t.coeff) (rest (t :: b))
      else
        consSegset t.point (op s.coeff t.coeff)
          (if s.point.min = t.point.min then rest b else segsetMergeFrom op s a rest b)

/-- What `segset:+` and `segset:-` have in common: `op` combines two coefficients, and `alone`
is what becomes of the rest of the second segset after the first is used up. -/
def segsetMerge (op : Int → Int → Int) (alone : List Segment → List Segment) :
    List Segment → List Segment → List Segment
  | [] => alone
  | s :: a => segsetMergeFrom op s a (segsetMerge op alone a)

/-- `segset:+` -/
def segsetPlus : List Segment → List Segment → List Segment := segsetMerge (· + ·) id

/-- `segset:-` -/
def segsetMinus : List Segment → List Segment → List Segment := segsetMerge (· - ·) segsetNegate

/-! ## Interval arithmetic -/

/-- A number, or the sum of an offset and a segset. -/
inductive Interval where
  | number (n : Int)
  | interval (offset : Int) (segset : List Segment)
deriving DecidableEq, Repr

def makeInterval (offset : Int) : List Segment → Interval
  | [] => .number offset
  | s :: segset => .interval offset (s :: segset)

/-- `label->machine-interval` -/
def labelToMachineInterval {Name : Type} (low high : Int) : Except (Failure Name) Interval := do
  let min ← toMachinePc t low
  let max ← toMachinePc t high
  return makeInterval 0 [⟨⟨min, max⟩, 1⟩]

/-- The sum of the segments, with their ending points taken as `position` says. -/
def sumSegments (position : Point → Int) (base : Int) : List Segment → Int
  | [] => 0
  | s :: segset =>
      (position s.point - base) * s.coeff + sumSegments position (position s.point) segset

/-- An interval with the points taken as `position` says. -/
def Interval.at (position : Point → Int) : Interval → Int
  | .number n => n
  | .interval offset segset => offset + sumSegments position 0 segset

def intervalValues (interval : Interval) : Int × Int :=
  let result1 := interval.at Point.min
  let result2 := interval.at Point.max
  if result1 ≤ result2 then (result1, result2) else (result2, result1)

def intervalFinalValue (interval : Interval) : Int := interval.at Point.min

/-- `interval:+` -/
def intervalPlus : Interval → Interval → Interval
  | .interval a segsetA, .interval b segsetB => makeInterval (a + b) (segsetPlus segsetA segsetB)
  | .interval a segsetA, .number b => makeInterval (a + b) segsetA
  | .number a, .interval b segsetB => makeInterval (a + b) segsetB
  | .number a, .number b => .number (a + b)

/-- `interval:-` -/
def intervalMinus : Interval → Interval → Interval
  | .interval a segsetA, .interval b segsetB => makeInterval (a - b) (segsetMinus segsetA segsetB)
  | .interval a segsetA, .number b => makeInterval (a - b) segsetA
  | .number a, .interval b segsetB => makeInterval (a - b) (segsetNegate segsetB)
  | .number a, .number b => .number (a - b)

instance : Add Interval := ⟨intervalPlus⟩
instance : Sub Interval := ⟨intervalMinus⟩
instance : IntCast Interval := ⟨Interval.number⟩

variable {Name : Type} [DecidableEq Name] {α : Type}

abbrev SymbolTable (Name α : Type) := List (Name × α)

/-- `symbol-table-define!` -/
def SymbolTable.define (table : SymbolTable Name α) (key : Name) (value : α) :
    Except (Failure Name) (SymbolTable Name α) :=
  if (table.lookup key).isSome then .error (.redefiningSymbol key) else .ok ((key, value) :: table)

/-- `symbol-table-value` -/
def SymbolTable.value (table : SymbolTable Name α) (key : Name) : Except (Failure Name) α :=
  match table.lookup key with
  | some value => .ok value
  | none => .error (.undefinedKey key)

inductive Expression (Name : Type) where
  | integer (n : Int)
  | pc
  | symbol (name : Name)
  | plus (a b : Expression Name)
  | minus (a b : Expression Name)

/-- `evaluate`. The values are intervals while branches are relaxed, and numbers when the
output is made: on numbers the interval operators are those of the numbers. -/
def evaluate [Add α] [Sub α] [IntCast α] (table : SymbolTable Name α) (pcValue : Option α) :
    Expression Name → Except (Failure Name) α
  | .integer n => .ok (n : α)
  | .pc =>
      match pcValue with
      | some value => .ok value
      | none => .error .noPcDefined
  | .symbol name => table.value name
  | .plus a b => do return (← evaluate table pcValue a) + (← evaluate table pcValue b)
  | .minus a b => do return (← evaluate table pcValue a) - (← evaluate table pcValue b)

end MitScheme.Assembler
