import Mathlib.Data.Int.GCD

/-!
# Exact rationals

The arithmetic of `arith.scm` on integers and ratnums. An operation reduces its result as far as the parts of its
operands require, and no further: a ratnum is made of numbers that are known to have no common factor.
-/

namespace MitScheme.Arith

/-- An exact rational: an integer, or a ratnum. -/
inductive ExactRational where
  | integer (n : Int)
  | ratnum (numerator denominator : Int)
deriving DecidableEq, Repr

inductive ArithError where
  | divideByZero (operator : String) (operands : List ExactRational)
  | badRange (argument : Int) (operator : String)
  /-- The recursion was not given enough steps. -/
  | fuel
deriving DecidableEq, Repr

abbrev Result := Except ArithError

def intQuotient (n d : Int) : Result Int :=
  if d = 0 then .error (.divideByZero "integer-quotient" [.integer n, .integer d]) else .ok (n.tdiv d)

def intGcd (n m : Int) : Int :=
  if _h : m ≠ 0 then intGcd m (n.tmod m) else if n < 0 then -n else n
termination_by m.natAbs
decreasing_by
  rw [Int.natAbs_tmod]
  exact Nat.mod_lt _ (Int.natAbs_pos.mpr ‹_›)

/-- `int:floor`, for a divisor that is not zero. -/
def intFloor (n d : Int) : Int :=
  let q := n.tdiv d
  if n.tmod d = 0 ∨ (if n < 0 then d < 0 else ¬ d < 0) then q else q - 1

theorem half_bounds {e : Int} (h : 2 ≤ e) : 1 ≤ e.tdiv 2 ∧ e.tdiv 2 < e := by
  rw [Int.tdiv_eq_ediv_of_nonneg (by omega)]
  omega

/-- The loop of `int:expt` and of `rat:expt`, for an exponent that is at least 2. -/
def exptLoop {α : Type} (mul : α → α → Result α) (b : α) (e : Int) (answer : α) (h : 2 ≤ e) : Result α := do
  let b' ← mul b b
  let answer' ← (if e.tmod 2 = 0 then .ok answer else mul answer b)
  if hone : e.tdiv 2 = 1 then mul answer' b'
  else exptLoop mul b' (e.tdiv 2) answer' (by have := half_bounds h; omega)
termination_by e.toNat
decreasing_by
  have := half_bounds h
  omega

def intExpt (b e : Int) : Result Int :=
  if h : 0 < e then
    if hone : 1 = e ∨ b = 0 ∨ 1 = b then .ok b
    else if 2 = b then .ok (1 * 2 ^ e.toNat)
    else exptLoop (fun n m => .ok (n * m)) b e 1 (by omega)
  else if e = 0 then .ok 1
  else .error (.badRange e "expt")

/-- `rat:=` -/
def ratEqual : ExactRational → ExactRational → Bool
  | .ratnum n d, .ratnum n' d' => n == n' && d == d'
  | .ratnum _ _, .integer _ => false
  | .integer _, .ratnum _ _ => false
  | .integer n, .integer n' => n == n'

/-- `rat:<` -/
def ratLess : ExactRational → ExactRational → Bool
  | .ratnum n d, .ratnum n' d' => n * d' < n' * d
  | .ratnum n d, .integer r => n < r * d
  | .integer q, .ratnum n d => q * d < n
  | .integer q, .integer r => q < r

def ratPositive : ExactRational → Bool
  | .ratnum n _ => 0 < n
  | .integer n => 0 < n

def ratNegative : ExactRational → Bool
  | .ratnum n _ => n < 0
  | .integer n => n < 0

/-! ## Calculating -/

def makeRational (n d : Int) : ExactRational := if n = 0 ∨ 1 = d then .integer n else .ratnum n d

def ratBinaryOperator (q r : ExactRational) (intInt : Int → Int → Result ExactRational)
    (intRat : Int → Int → Int → Result ExactRational) (ratInt : Int → Int → Int → Result ExactRational)
    (ratRat : Int → Int → Int → Int → Result ExactRational) : Result ExactRational :=
  match q, r with
  | .ratnum u u', .ratnum v v' => ratRat u u' v v'
  | .ratnum u u', .integer v => ratInt u u' v
  | .integer u, .ratnum v v' => intRat u v v'
  | .integer u, .integer v => intInt u v

/-- The operators that `define-addition-operator` defines. -/
def additionOperator (op : Int → Int → Int) (q r : ExactRational) : Result ExactRational :=
  ratBinaryOperator q r
    (fun u v => .ok (.integer (op u v)))
    (fun u v v' => .ok (makeRational (op (u * v') v) v'))
    (fun u u' v => .ok (makeRational (op u (v * u')) u'))
    (fun u u' v v' =>
      let d1 := intGcd u' v'
      if d1 = 1 then .ok (makeRational (op (u * v') (v * u')) (u' * v'))
      else do
        let ud1 ← intQuotient u' d1
        let vd1 ← intQuotient v' d1
        let t := op (u * vd1) (v * ud1)
        if t = 0 then .ok (.integer 0)
        else do
          let d2 := intGcd t d1
          let td2 ← intQuotient t d2
          let vd2 ← intQuotient v' d2
          .ok (makeRational td2 (ud1 * vd2)))

/-- `rat:+` -/
def ratAdd (q r : ExactRational) : Result ExactRational := additionOperator (· + ·) q r

/-- `rat:-` -/
def ratSubtract (q r : ExactRational) : Result ExactRational := additionOperator (· - ·) q r

/-- `rat:1+` -/
def ratSucc : ExactRational → ExactRational
  | .ratnum v v' => .ratnum (v + v') v'
  | .integer v => .integer (v + 1)

def ratNegate : ExactRational → ExactRational
  | .ratnum v v' => .ratnum (-v) v'
  | .integer v => .integer (-v)

/-- `rat:*` -/
def ratMultiply (q r : ExactRational) : Result ExactRational :=
  ratBinaryOperator q r
    (fun u v => .ok (.integer (u * v)))
    (fun u v v' => do
      let d := intGcd u v'
      .ok (makeRational ((← intQuotient u d) * v) (← intQuotient v' d)))
    (fun u u' v => do
      let d := intGcd v u'
      .ok (makeRational (u * (← intQuotient v d)) (← intQuotient u' d)))
    (fun u u' v v' => do
      let d1 := intGcd u v'
      let d2 := intGcd v u'
      .ok (makeRational ((← intQuotient u d1) * (← intQuotient v d2)) ((← intQuotient u' d2) * (← intQuotient v' d1))))

def ratSquare : ExactRational → ExactRational
  | .ratnum n d => .ratnum (n * n) (d * d)
  | .integer n => .integer (n * n)

def ratSignCorrection {α : Type} (u v : Int) (cont : Int → Int → α) : α :=
  if v < 0 then cont (-u) (-v) else cont u v

/-- `rat:/` -/
def ratDivide (q r : ExactRational) : Result ExactRational :=
  ratBinaryOperator q r
    (fun u v =>
      if v = 0 then .error (.divideByZero "/" [q, r])
      else
        ratSignCorrection u v fun u v => do
          let d := intGcd u v
          .ok (makeRational (← intQuotient u d) (← intQuotient v d)))
    (fun u v v' =>
      ratSignCorrection u v fun u v => do
        let d := intGcd u v
        .ok (makeRational ((← intQuotient u d) * v') (← intQuotient v d)))
    (fun u u' v =>
      if v = 0 then .error (.divideByZero "/" [q, r])
      else
        ratSignCorrection u v fun u v => do
          let d := intGcd u v
          .ok (makeRational (← intQuotient u d) (u' * (← intQuotient v d))))
    (fun u u' v v' => do
      let d1 := intGcd u v
      let d2 := if v < 0 then -intGcd v' u' else intGcd v' u'
      .ok (makeRational ((← intQuotient u d1) * (← intQuotient v' d2)) ((← intQuotient u' d2) * (← intQuotient v d1))))

def ratInvert : ExactRational → Result ExactRational
  | .ratnum v v' =>
      if 0 < v then .ok (makeRational v' v)
      else if v < 0 then .ok (makeRational (-v') (-v))
      else .error (.divideByZero "/" [.integer 1, .ratnum v v'])
  | .integer v =>
      if 0 < v then .ok (makeRational 1 v)
      else if v < 0 then .ok (makeRational (-1) (-v))
      else .error (.divideByZero "/" [.integer 1, .integer v])

/-- `exact-method` in `rat:expt`, for a positive exponent. -/
def exactMethod (b : ExactRational) (e : Int) (h : 0 < e) : Result ExactRational :=
  if hone : 1 = e then .ok b else exptLoop ratMultiply b e (.integer 1) (by omega)

/-- `rat:expt`, for an exponent that is an integer. -/
def ratExpt (b : ExactRational) (e : Int) : Result ExactRational :=
  match b with
  | .integer n =>
      if e < 0 then do
        let power ← intExpt n (-e)
        ratInvert (.integer power)
      else do
        let power ← intExpt n e
        .ok (.integer power)
  | .ratnum _ _ =>
      if h : e < 0 then do
        let power ← exactMethod b (-e) (by omega)
        ratInvert power
      else if h : 0 < e then exactMethod b e h
      else .ok (.integer 1)

def ratFloor : ExactRational → Int
  | .ratnum n d => intFloor n d
  | .integer n => n

/-- `loop` in `rat:simplest-rational`. -/
def simplestLoop : Nat → ExactRational → ExactRational → Result ExactRational
  | 0, _, _ => .error .fuel
  | fuel + 1, x, y =>
      match x with
      | .integer n => .ok (.integer n)
      | .ratnum _ _ =>
          let fx := ratFloor x
          let fy := ratFloor y
          if ratEqual (.integer fx) (.integer fy) then do
            let x' ← ratInvert (← ratSubtract y (.integer fy))
            let y' ← ratInvert (← ratSubtract x (.integer fx))
            let r ← simplestLoop fuel x' y'
            ratAdd (.integer fx) (← ratInvert r)
          else
            .ok (ratSucc (.integer fx))

/-- `x<y` in `rat:simplest-rational`. -/
def simplestBetween (fuel : Nat) (x y : ExactRational) : Result ExactRational :=
  if ratPositive x then simplestLoop fuel x y
  else if ratNegative y then do
    let r ← simplestLoop fuel (ratNegate y) (ratNegate x)
    .ok (ratNegate r)
  else .ok (.integer 0)

def ratSimplestRational (fuel : Nat) (x y : ExactRational) : Result ExactRational :=
  if ratLess x y then simplestBetween fuel x y
  else if ratLess y x then simplestBetween fuel y x
  else .ok x

def ratRationalize (fuel : Nat) (q e : ExactRational) : Result ExactRational := do
  ratSimplestRational fuel (← ratSubtract q e) (← ratAdd q e)

end MitScheme.Arith
