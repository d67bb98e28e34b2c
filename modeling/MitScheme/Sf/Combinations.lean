import MitScheme.Sf.FreeVariables

/-!
# Making combinations

The constructors of `object.scm` that do work. A combination of constants is folded, the arguments that nothing needs
are deleted from a combination whose operator is a lambda expression, and a sequence is kept flat.
-/

namespace MitScheme.Sf

open SyntaxOutput (Symbol)

/-- `combination/constant-folding-operators`. `string->symbol` is a special case: strings can be side-effected. -/
def constantFoldingOperators : List String :=
  ["&*", "&+", "&-", "&/", "-1+", "1+", "cell?", "char->integer", "char-bits", "char-code", "char-downcase",
    "char-upcase", "compiled-code-address->block", "compiled-code-address->offset", "divide-fixnum", "eq?",
    "equal-fixnum?", "fixnum-and", "fixnum-andc", "fixnum-lsh", "fixnum-not", "fixnum-or", "fixnum-quotient",
    "fixnum-remainder", "fixnum-xor", "flonum-abs", "flonum-acos", "flonum-add", "flonum-asin", "flonum-atan",
    "flonum-atan2", "flonum-ceiling", "flonum-ceiling->exact", "flonum-cos", "flonum-divide", "flonum-equal?",
    "flonum-exp", "flonum-expt", "flonum-floor", "flonum-floor->exact", "flonum-greater?", "flonum-less?",
    "flonum-log", "flonum-multiply", "flonum-negate", "flonum-negative?", "flonum-positive?", "flonum-round",
    "flonum-round->exact", "flonum-sin", "flonum-sqrt", "flonum-subtract", "flonum-tan", "flonum-truncate",
    "flonum-truncate->exact", "flonum-zero?", "gcd-fixnum", "greater-than-fixnum?", "index-fixnum?",
    "integer->char", "less-than-fixnum?", "make-char", "make-non-pointer-object", "minus-fixnum",
    "minus-one-plus-fixnum", "multiply-fixnum", "negative-fixnum?", "negative?", "not", "null?", "object-type",
    "object-type?", "one-plus-fixnum", "pair?", "plus-fixnum", "positive-fixnum?", "positive?",
    "primitive-procedure-arity", "string->symbol", "string-length", "zero-fixnum?", "zero?"]

/-- The operations of `known-declarations`. -/
def knownDeclarations : List String :=
  ["usual-integrations", "integrate", "integrate-operator", "integrate-external", "ignorable", "ignore",
    "reduce-operator", "replace-operator", "expand-operator"]

/-- What a switch can be set to: `#f`, `#t`, `warn`, and anything else. -/
inductive Switch where
  | off
  | on
  | warn
  | notify
deriving DecidableEq, Repr

def Switch.noisyTest : Switch → Bool
  | .off => false
  | .on => true
  | .warn => false
  | .notify => true

/-- What the constructors use beside their arguments: the two switches, the flag `integrated` of the variables, and
the application of primitive procedures, which is none when the primitive signals an error. -/
structure Settings where
  enableConstantFolding : Switch
  enableArgumentDeletion : Switch
  integrated : Variable → Bool
  applyPrimitive : Primitive → List Object → Option Object

/-- The errors of the constructors. -/
inductive Failure where
  /-- What the primitive signals. -/
  | primitive
  | operands (message : String) (irritants : List Expr)
  | parameters (message : String) (irritants : List Variable)
  /-- An analysis that has no answer, or a part of an empty list. -/
  | analysis

/-- An answer of an analysis. -/
def answered {α : Type} : Option α → Except Failure α
  | some a => .ok a
  | none => .error .analysis

/-- `constant/value`, of a constant. -/
def constantValue : Expr → Option Object
  | .constant value => some value
  | _ => none

/-- `constant?` -/
def isConstant (e : Expr) : Bool := (constantValue e).isSome

/-- The value of an operator that is a primitive procedure. -/
def primitiveValue : Expr → Option Primitive
  | .constant (.primitive p) => some p
  | _ => none

def foldableCombination (operator : Expr) (operands : List Expr) : Bool :=
  ((primitiveValue operator).any fun p =>
    procedureArityValid p operands.length && constantFoldingOperators.contains p.name) && operands.all isConstant

/-- `combination/fold-constant` -/
def foldConstant (S : Settings) (operator : Primitive) (operands : List Object) : Except Failure Expr :=
  match S.applyPrimitive operator operands with
  | some result => .ok (.constant result)
  | none => .error .primitive

mutual

/-- `sequence/collect-actions`, of one action. -/
def collectAction (collected : List Expr) : Expr → List Expr
  | .sequence actions => collectActions collected actions
  | action => action :: collected

/-- `sequence/collect-actions`. The last action comes first. -/
def collectActions (collected : List Expr) : List Expr → List Expr
  | [] => collected
  | action :: actions => collectActions (collectAction collected action) actions

end

/-- The actions without those that are effect free, the last one excepted. -/
def filterActions (filtered : List Expr) : List Expr → Except Failure (List Expr)
  | [] => .ok filtered
  | action :: actions => do
      if ← answered (effectFree action) then
        filterActions (if filtered.isEmpty then [action] else filtered) actions
      else
        filterActions (action :: filtered) actions

/-- `sequence/make`. There is no first action in an empty list. -/
def sequenceMake (actions : List Expr) : Except Failure Expr := do
  match ← filterActions [] (collectActions [] actions) with
  | [] => .error .analysis
  | [action] => .ok action
  | filteredActions => .ok (.sequence filteredActions)

/-! ## Argument deletion -/

/-- `declarations/known?` -/
def Declaration.isKnown (declaration : Declaration) : Bool := knownDeclarations.contains declaration.operation

def reducibleOperator (S : Settings) : Expr → Bool
  | .procedure block _ _ optional rest _ =>
      block.safe && block.declarations.all Declaration.isKnown && optional.all S.integrated && rest.all S.integrated
  | _ => false

/-- The loop of `partition-operands`. -/
def partitionLoop (S : Settings) (rest : Option Variable) (freeInBody : List Variable) :
    List Variable → List Expr → List Variable → List Expr → List Expr →
      Except Failure (List Variable × List Expr × List Expr)
  | [], operands, requiredParameters, referencedOperands, unreferencedOperands =>
      if rest.isSome || operands.isEmpty then
        .ok (requiredParameters.reverse, referencedOperands.reverse,
          if operands.isEmpty || rest.any S.integrated then unreferencedOperands
          else operands ++ unreferencedOperands)
      else
        .error (.operands "Argument mismatch" operands)
  | parameter :: parameters, [], _, _, _ => .error (.parameters "Argument mismatch" (parameter :: parameters))
  | parameter :: parameters, operand :: operands, requiredParameters, referencedOperands, unreferencedOperands =>
      if parameter ∈ freeInBody then
        partitionLoop S rest freeInBody parameters operands (parameter :: requiredParameters)
          (operand :: referencedOperands) unreferencedOperands
      else if S.integrated parameter then
        partitionLoop S rest freeInBody parameters operands requiredParameters referencedOperands unreferencedOperands
      else
        partitionLoop S rest freeInBody parameters operands requiredParameters referencedOperands
          (operand :: unreferencedOperands)

/-- `partition-operands`, of the parts of a procedure. -/
def partitionOperands (S : Settings) (required optional : List Variable) (rest : Option Variable) (body : Expr)
    (operands : List Expr) : Except Failure (List Variable × List Expr × List Expr) := do
  let freeInBody ← answered (freeVariables body)
  partitionLoop S rest freeInBody (required ++ optional) operands [] [] []

/-- `open-block?` -/
def Expr.isOpenBlock : Expr → Bool
  | .openBlock .. => true
  | _ => false

/-- What is left of the application of a procedure to operands when only some of its parameters and their operands
are kept. -/
def reduced (block : Block) (inner : Block) (name : Symbol) (body : Expr) (newArgumentList : List Variable)
    (newOperandList : List Expr) : Expr :=
  -- An open block is kept in a procedure: its definitions would otherwise become those of another body.
  if !newArgumentList.isEmpty || body.isOpenBlock then
    .combination block (.procedure inner name newArgumentList [] none body) newOperandList
  else
    body

def combinationMake (S : Settings) (block : Block) (operator : Expr) (operands : List Expr) : Except Failure Expr :=
  match operator with
  | .constant (.primitive p) =>
      if foldableCombination operator operands && S.enableConstantFolding.noisyTest then
        foldConstant S p (operands.filterMap constantValue)
      else
        .ok (.combination block operator operands)
  | .procedure inner name required optional rest body =>
      if reducibleOperator S operator && S.enableArgumentDeletion.noisyTest then do
        let (newArgumentList, newOperandList, otherOperands) ← partitionOperands S required optional rest body operands
        let resultBody := reduced block inner name body newArgumentList newOperandList
        if otherOperands.isEmpty then .ok resultBody else sequenceMake (otherOperands ++ [resultBody])
      else
        .ok (.combination block operator operands)
  | _ => .ok (.combination block operator operands)

/-- `expression/constant-eq?` -/
def Expr.constantEq (e : Expr) (value : Object) : Bool := constantValue e == some value

def globalRef : Expr → Option Symbol
  | .access _ environment name => if environment.constantEq .systemGlobalEnvironment then some name else none
  | _ => none

/-- `(ucode-primitive cons)` -/
def ucodeCons : Primitive := ⟨"cons", some 2⟩

/-- What is called is `cons`, as a primitive or as the global variable. -/
def callsCons (rator : Expr) : Bool := rator.constantEq (.primitive ucodeCons) || globalRef rator == some (.interned "cons")

/-- `check`, of the last operand: the operands that it is a list of. No answer is an error: the second operand of a
call of `cons` is taken, and there is none. -/
def checkTail : Expr → Except Failure (Option (List Expr))
  | .constant value => .ok (if value = .emptyList then some [] else none)
  | .combination _ rator rands =>
      if callsCons rator then
        match rands with
        | first :: second :: _ => do
            let next ← checkTail second
            pure (next.map (first :: ·))
        | _ => .error .analysis
      else
        .ok none
  | _ => .ok none

/-- `integrate/hack-apply?` -/
def hackApply (operands : List Expr) : Except Failure (Option (List Expr)) :=
  match operands.getLast? with
  | none => .ok none
  | some last => do
      let tail ← checkTail last
      pure (tail.map (operands.dropLast ++ ·))

end MitScheme.Sf
