import MitScheme.Compiler.Bitutl
import MitScheme.Lib.Results
import MitScheme.Lib.StepFunctions

/-!
# Intervals under all operators

The interval arithmetic of `bitutl.scm` once more, on exact rational numbers: a division leaves intervals
whose offset and coefficients need not be integers, as long as their values are. `QUOTIENT` and `REMAINDER`,
which refuse intervals, are left out.
-/

namespace MitScheme.Intervals

open Assembler (Point)

/-- What the operators signal, besides the errors of the symbol table and of `paranoid-quotient`. -/
inductive Failure (Name : Type) (Interval : Type) where
  | assembler (failure : Assembler.Failure Name)
  | wrongType (n : ℚ)
  | cantMultiplyTwoIntervals (a b : Interval)
  | cantDivideByInterval (b : Interval)
  | divisionNotExact (a : Interval) (b : ℚ)

/-! ## Segsets

A segment is a point and a coefficient, and a segset a list of segments. -/

abbrev Segment := Point × ℚ

def consSegset (point : Point) (coeff : ℚ) (segset : List Segment) : List Segment :=
  if coeff = StepFunctions.leading segset then segset else (point, coeff) :: segset

def segsetScale (b : List Segment) (c : ℚ) : List Segment := b.map fun s => (s.1, s.2 * c)

def segsetNegate (b : List Segment) : List Segment := segsetScale b (-1)

/-- What `segset:+` and `segset:-` have in common: `op` combines two coefficients, and `alone` is what becomes
of the rest of the second segset after the first is used up. -/
def segsetMerge (op : ℚ → ℚ → ℚ) (alone : List Segment → List Segment) :
    List Segment → List Segment → List Segment
  | [], b => alone b
  | s :: a, [] => s :: a
  | s :: a, t :: b =>
      if s.1.min < t.1.min then consSegset s.1 (op s.2 t.2) (segsetMerge op alone a (t :: b))
      else if s.1.min = t.1.min then consSegset t.1 (op s.2 t.2) (segsetMerge op alone a b)
      else consSegset t.1 (op s.2 t.2) (segsetMerge op alone (s :: a) b)
termination_by a b => a.length + b.length

/-- `segset:+` -/
def segsetPlus : List Segment → List Segment → List Segment := segsetMerge (· + ·) id

/-- `segset:-` -/
def segsetMinus : List Segment → List Segment → List Segment := segsetMerge (· - ·) segsetNegate

/-! ## Intervals -/

/-- A number, or the sum of an offset and a segset. -/
inductive Interval where
  | number (n : ℚ)
  | interval (offset : ℚ) (segset : List Segment)
deriving DecidableEq

/-- `interval?` -/
def Interval.isInterval : Interval → Bool
  | .number _ => false
  | .interval _ _ => true

def makeInterval (offset : ℚ) : List Segment → Interval
  | [] => .number offset
  | s :: segset => .interval offset (s :: segset)

/-- `label->machine-interval`, of the addresses in machine units. -/
def labelToMachineInterval (point : Point) : Interval := makeInterval 0 [(point, 1)]

/-- An interval with the points taken as `position` says. -/
def Interval.at (position : Point → ℚ) : Interval → ℚ
  | .number n => n
  | .interval offset segset => offset + StepFunctions.total position 0 segset

def intervalValues (interval : Interval) : ℚ × ℚ :=
  let result1 := interval.at fun p => p.min
  let result2 := interval.at fun p => p.max
  if result1 ≤ result2 then (result1, result2) else (result2, result1)

def intervalFinalValue (interval : Interval) : ℚ := interval.at fun p => p.min

/-- `interval:+` -/
def intervalPlus : Interval → Interval → Interval
  | .interval a segsetA, .interval b segsetB => makeInterval (a + b) (segsetPlus segsetA segsetB)
  | .interval a segsetA, .number b => makeInterval (a + b) segsetA
  | .number a, .interval b segsetB => makeInterval (a + b) segsetB
  | .number a, .number b => .number (a + b)

/-- `interval:-` -/
def intervalMinus : Interval → Interval → Interval
  | .interval a segsetA, .interval b segsetB => makeInterval (a - b) (segsetMinus segsetA segsetB)
  | .interval a segsetA, .number b => makeInterval (a - b) segsetA
  | .number a, .interval b segsetB => makeInterval (a - b) (segsetNegate segsetB)
  | .number a, .number b => .number (a - b)

variable {Name : Type}

/-- `interval:*` -/
def intervalTimes (a b : Interval) : Except (Failure Name Interval) Interval :=
  match a, b with
  | .interval _ _, .interval _ _ => .error (.cantMultiplyTwoIntervals a b)
  | .interval offset segset, .number b => .ok (makeInterval (offset * b) (segsetScale segset b))
  | .number a, .interval offset segset => .ok (makeInterval (offset * a) (segsetScale segset a))
  | .number a, .number b => .ok (.number (a * b))

def paranoidQuotient (dividend divisor : ℚ) : Except (Failure Name Interval) ℚ :=
  if ¬ dividend.isInt then .error (.wrongType dividend)
  else if ¬ divisor.isInt then .error (.wrongType divisor)
  else if divisor = 0 then .error (.assembler .divideByZero)
  else if dividend.num % divisor.num ≠ 0 then
    .error (.assembler (.notAMultiple dividend.num divisor.num))
  else .ok (dividend.num / divisor.num : Int)

/-- `interval:/` -/
def intervalDivide (a b : Interval) : Except (Failure Name Interval) Interval :=
  match a, b with
  | _, .interval _ _ => .error (.cantDivideByInterval b)
  | .interval offset segset, .number b =>
      if b = 0 then .error (.assembler .divideByZero)
      else
        let result := makeInterval (offset / b) (segsetScale segset (1 / b))
        let (low, high) := intervalValues result
        if low.isInt ∧ high.isInt then .ok result else .error (.divisionNotExact a b)
  | .number a, .number b => do return .number (← paranoidQuotient a b)

inductive Expression (Name : Type) where
  | number (n : ℚ)
  | symbol (name : Name)
  | plus (a b : Expression Name)
  | minus (a b : Expression Name)
  | times (a b : Expression Name)
  | divide (a b : Expression Name)

/-- `symbol-table-value`, of a table of intervals. -/
def symbolTableValue [DecidableEq Name] (table : Assembler.SymbolTable Name Interval) (key : Name) :
    Except (Failure Name Interval) Interval :=
  match table.lookup key with
  | some value => .ok value
  | none => .error (.assembler (.undefinedKey key))

/-- `evaluate` -/
def evaluate [DecidableEq Name] (table : Assembler.SymbolTable Name Interval) :
    Expression Name → Except (Failure Name Interval) Interval
  | .number n => .ok (.number n)
  | .symbol name => symbolTableValue table name
  | .plus a b => do return intervalPlus (← evaluate table a) (← evaluate table b)
  | .minus a b => do return intervalMinus (← evaluate table a) (← evaluate table b)
  | .times a b => do intervalTimes (← evaluate table a) (← evaluate table b)
  | .divide a b => do intervalDivide (← evaluate table a) (← evaluate table b)

end MitScheme.Intervals
