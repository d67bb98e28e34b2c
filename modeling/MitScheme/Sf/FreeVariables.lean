import MitScheme.Sf.Analyze

/-!
# Free variables

The three traversals of `analyze.scm` that look for variables. The first collects them, the second looks for one, and
the third counts how often it is called and how often it is used otherwise.
-/

namespace MitScheme.Sf

/-- `(lset-adjoin eq? vars var)` -/
def lsetAdjoin (vars : List Variable) (var : Variable) : List Variable :=
  if var ∈ vars then vars else var :: vars

/-- `(lset-union eq? vars vars')` -/
def lsetUnion (vars vars' : List Variable) : List Variable :=
  if vars'.isEmpty then vars else if vars.isEmpty then vars' else vars'.foldl lsetAdjoin vars

/-- `(lset-difference eq? vars omitted)` -/
def lsetDifference (vars omitted : List Variable) : List Variable := vars.filter fun var => var ∉ omitted

/-! ## Collecting the variables -/

/-- The variables, or none of them when the test says so. -/
def skipIf (test : Option Bool) (vars : Option (List Variable)) : Option (List Variable) := do
  if ← test then pure [] else vars

mutual

/-- `expression/free-variables` -/
def freeVariables : Expr → Option (List Variable)
  | .access _ environment _ => freeVariables environment
  | .assignment _ var value => do
      let vars ← freeVariables value
      pure (lsetAdjoin vars var)
  | .combination _ operator operands => do
      let vars ← freeVariables operator
      let vars' ← expressionsFreeVariables [] operands
      pure (lsetUnion vars vars')
  | .conditional predicate consequent alternative => do
      let vars ← freeVariables predicate
      let vars' ← skipIf (alwaysFalse predicate) (freeVariables consequent)
      let vars'' ← skipIf (neverFalse predicate) (freeVariables alternative)
      pure (lsetUnion (lsetUnion vars vars') vars'')
  | .constant _ => some []
  | .declaration _ expression => freeVariables expression
  | .delay expression => freeVariables expression
  | .disjunction predicate alternative => do
      let vars ← freeVariables predicate
      let vars' ← skipIf (neverFalse predicate) (freeVariables alternative)
      pure (lsetUnion vars vars')
  | .openBlock block _ values actions => do
      let vars ← expressionsFreeVariables [] values
      actionsFreeVariables block.boundVariables (lsetDifference vars block.boundVariables) actions
  | .procedure block _ _ _ _ body => do
      let vars ← freeVariables body
      pure (lsetDifference vars block.boundVariables)
  | .quotation .. => some []
  | .reference _ var => some [var]
  | .sequence actions => expressionsFreeVariables [] actions
  | .theEnvironment _ => some []
  | .valueMarker => none

/-- `expressions/free-variables`, from the variables that have been collected. -/
def expressionsFreeVariables (answer : List Variable) : List Expr → Option (List Variable)
  | [] => some answer
  | expression :: expressions => do
      let vars ← freeVariables expression
      expressionsFreeVariables (lsetUnion answer vars) expressions

/-- The actions of an open block, whose own variables are left out. -/
def actionsFreeVariables (omitted vars : List Variable) : List Expr → Option (List Variable)
  | [] => some vars
  | .valueMarker :: actions => actionsFreeVariables omitted vars actions
  | action :: actions => do
      let vars' ← freeVariables action
      actionsFreeVariables omitted (lsetUnion vars (lsetDifference vars' omitted)) actions

end

mutual

/-- `expression/free-variable?` -/
def isFreeVariable (var : Variable) : Expr → Option Bool
  | .access _ environment _ => isFreeVariable var environment
  | .assignment _ var' value => pure (var == var') <||> isFreeVariable var value
  | .combination _ operator operands => isFreeVariable var operator <||> expressionsFreeVariable var operands
  | .conditional predicate consequent alternative =>
      isFreeVariable var predicate <||> do
        if ← alwaysFalse predicate then isFreeVariable var alternative
        else if ← neverFalse predicate then isFreeVariable var consequent
        else isFreeVariable var consequent <||> isFreeVariable var alternative
  | .constant _ => some false
  | .declaration _ expression => isFreeVariable var expression
  | .delay expression => isFreeVariable var expression
  | .disjunction predicate alternative =>
      isFreeVariable var predicate <||> do
        if ← neverFalse predicate then pure false else isFreeVariable var alternative
  | .openBlock _ _ _ actions => actionsFreeVariable var actions
  | .procedure _ _ _ _ _ body => isFreeVariable var body
  | .quotation .. => some false
  | .reference _ var' => some (var' == var)
  | .sequence actions => actionsFreeVariable var actions
  | .theEnvironment _ => some false
  | .valueMarker => none

def expressionsFreeVariable (var : Variable) : List Expr → Option Bool
  | [] => some false
  | expression :: expressions => isFreeVariable var expression <||> expressionsFreeVariable var expressions

/-- The same for actions, of which the markers are passed over. -/
def actionsFreeVariable (var : Variable) : List Expr → Option Bool
  | [] => some false
  | .valueMarker :: actions => actionsFreeVariable var actions
  | action :: actions => isFreeVariable var action <||> actionsFreeVariable var actions

end

/-! ## Counting -/

/-- What `free-variable-info` passes on: the number of calls and of other uses, or the `#t` that stands for an
assignment. -/
inductive Info where
  | counts (operator argument : Nat)
  | assigned
deriving DecidableEq, Repr

/-- `(cons (fix:1+ (car info)) (cdr info))` -/
def Info.addOperator : Info → Option Info
  | .counts operator argument => some (.counts (operator + 1) argument)
  | .assigned => none

/-- `(cons (car info) (fix:1+ (cdr info)))` -/
def Info.addArgument : Info → Option Info
  | .counts operator argument => some (.counts operator (argument + 1))
  | .assigned => none

/-- Whether the node is a reference to the variable. -/
def isReference (var : Variable) : Expr → Bool
  | .reference _ var' => var' == var
  | _ => false

mutual

/-- `expression/free-variable-info-dispatch` -/
def freeVariableInfoDispatch (var : Variable) : Expr → Info → Option Info
  | .access _ environment _, info => freeVariableInfoDispatch var environment info
  | .assignment _ var' value, info =>
      if var == var' then some .assigned else freeVariableInfoDispatch var value info
  | .combination _ operator operands, info => do
      let innerInfo ← expressionsFreeVariableInfo var operands info
      if isReference var operator then innerInfo.addOperator else freeVariableInfoDispatch var operator innerInfo
  | .conditional predicate consequent alternative, info => do
      let info ← freeVariableInfoDispatch var alternative info
      let info ← freeVariableInfoDispatch var consequent info
      freeVariableInfoDispatch var predicate info
  | .constant _, info => some info
  | .declaration _ expression, info => freeVariableInfoDispatch var expression info
  | .delay expression, info => freeVariableInfoDispatch var expression info
  | .disjunction predicate alternative, info => do
      let info ← freeVariableInfoDispatch var alternative info
      freeVariableInfoDispatch var predicate info
  | .openBlock _ _ _ actions, info => actionsFreeVariableInfo var actions info
  | .procedure _ _ _ _ _ body, info => freeVariableInfoDispatch var body info
  | .quotation .., info => some info
  | .reference _ var', info => if var' == var then info.addArgument else some info
  | .sequence actions, info => expressionsFreeVariableInfo var actions info
  | .theEnvironment _, info => some info
  | .valueMarker, _ => none

def expressionsFreeVariableInfo (var : Variable) : List Expr → Info → Option Info
  | [], info => some info
  | expression :: expressions, info => do
      let info ← freeVariableInfoDispatch var expression info
      expressionsFreeVariableInfo var expressions info

/-- The same for the actions of an open block, of which the markers are passed over. -/
def actionsFreeVariableInfo (var : Variable) : List Expr → Info → Option Info
  | [], info => some info
  | .valueMarker :: actions, info => actionsFreeVariableInfo var actions info
  | action :: actions, info => do
      let info ← freeVariableInfoDispatch var action info
      actionsFreeVariableInfo var actions info

end

/-- `expression/free-variable-info` -/
def freeVariableInfo (e : Expr) (var : Variable) : Option Info := freeVariableInfoDispatch var e (.counts 0 0)

end MitScheme.Sf
