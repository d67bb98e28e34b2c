import MitScheme.Sf.Copying

/-!
# Integration

The pass of `subst.scm`. It rewrites an expression bottom up, and where the tables say so it puts copies of values in
the place of variables. An expression can grow on the way, so the recursion has fuel.
-/

namespace MitScheme.Sf

open SyntaxOutput (Symbol)
open Integration (constructor analyzed message nextAnswer markIntegrated)

/-- `combination/make` -/
def makeCombination (W : Pass) (block : Block) (operator : Expr) (operands : List Expr) : Integration Expr := do
  let s ← get
  constructor (combinationMake (W.settings s) block operator operands)

/-! ## Moving a body under other binders -/

def hackifyVariable (var : Variable) : Integration Unit :=
  modify fun s => { s.rename var with hackified := s.hackified ++ [var] }

/-- The variables that a procedure binds as its parameters. -/
def parameters : Expr → List Variable
  | .procedure _ _ required optional rest _ => required ++ optional ++ rest.toList
  | _ => []

/-- The procedure with another body. -/
def withBody (body : Expr) : Expr → Expr
  | .procedure block name required optional rest _ => .procedure block name required optional rest body
  | e => e

def procedureWithBody (procedure : Expr) (body : Expr) : Integration Expr := do
  (parameters procedure).forM hackifyVariable
  pure (withBody body procedure)

/-- `combination-with-operator`, of the parts of a combination. -/
def combinationWithOperator (W : Pass) (block : Block) (operands : List Expr) (operator : Expr) : Integration Expr :=
  makeCombination W block operator operands

mutual

/-- `integrate/compound-operator` -/
def compoundOperator (W : Pass) : Nat → Expr → List Expr → Integration (Option Expr)
  | 0, _, _ => throw .fuel
  | fuel + 1, operator, operands => do
      if ← analyzed (everyEffectFree operands) then scanOperator W fuel operator pure else pure none

def scanBody (W : Pass) : Nat → Expr → (Expr → Integration Expr) → Integration (Option Expr)
  | 0, _, _ => throw .fuel
  | fuel + 1, body, encloser =>
      match body with
      | .procedure _ _ _ _ _ inner =>
          if inner.isOpenBlock then pure none
          else do
            let inner ← encloser inner
            some <$> procedureWithBody body inner
      | _ => scanOperator W fuel body encloser

def scanOperator (W : Pass) : Nat → Expr → (Expr → Integration Expr) → Integration (Option Expr)
  | 0, _, _ => throw .fuel
  | fuel + 1, operator, encloser =>
      match operator with
      | .sequence actions =>
          match actions.reverse with
          | [] => throw .wrongType
          | last :: commands =>
              scanBody W fuel last fun expression => do
                encloser (← constructor (sequenceMake (expression :: commands).reverse))
      | .combination block operator' operands =>
          match operator' with
          | .procedure .. => descend W fuel block operands encloser operator'
          | _ => do
              match ← compoundOperator W fuel operator' operands with
              | some operator' => descend W fuel block operands encloser operator'
              | none => pure none
      | .declaration declarations expression =>
          scanBody W fuel expression fun expression => encloser (.declaration declarations expression)
      | _ => pure none

/-- `descend`, in a combination of these operands. -/
def descend (W : Pass) : Nat → Block → List Expr → (Expr → Integration Expr) → Expr → Integration (Option Expr)
  | 0, _, _, _, _ => throw .fuel
  | fuel + 1, block, operands, encloser, operator =>
      match operator with
      | .procedure _ _ _ _ _ body =>
          if body.isOpenBlock then pure none
          else
            scanBody W fuel body fun body' => do
              let operator ← procedureWithBody operator body'
              encloser (← combinationWithOperator W block operands operator)
      | _ => throw .wrongType

end

/-! ## Rewriting expressions -/

/-- `(ucode-primitive apply)` -/
def ucodeApply : Primitive := ⟨"apply", none⟩

/-- What two negations leave when they are elided: the operand of the inner one, if it is a truth value. -/
def elideDoubleNegative (W : Pass) (operator : Expr) (operands : List Expr) : Integration (Option Expr) :=
  match operands with
  | [.combination _ rator [rand]] =>
      if operator.constantEq (.primitive ucodeNot) && callToNot rator 1 then do
        let boolean ← analyzed (isBoolean rand)
        pure (if boolean && W.enableElideDoubleNegatives.noisyTest then some rand else none)
      else
        pure none
  | _ => pure none

/-- The operator and the operands that a call of `apply` stands for, if that can be seen. -/
def appliedOperands (p : Primitive) (operands : List Expr) : Integration (Option (List Expr)) :=
  if p = ucodeApply then constructor (hackApply operands) else pure none

mutual

def integrateExpression (W : Pass) : Nat → Expr → Integration Expr
  | 0, _ => throw .fuel
  | fuel + 1, expression =>
      match expression with
      | .access block environment name => do
          let environment ← integrateExpression W fuel environment
          if environment.constantEq .systemGlobalEnvironment then do
            match ← nextAnswer with
            | .integrate value _ parents => copyExpressionIntern block parents value
            | _ => pure (.access block environment name)
          else
            pure (.access block environment name)
      | .assignment block var value => do pure (.assignment block var (← integrateExpression W fuel value))
      | .combination block operator operands => do
          let operands ← operands.mapM (integrateExpression W fuel)
          integrateCombination W fuel block operator operands
      | .conditional predicate consequent alternative => do
          let predicate ← integrateExpression W fuel predicate
          integrateConditional W fuel predicate consequent alternative
      | .constant value => pure (.constant value)
      | .declaration declarations expression => do
          let answer ← integrateExpression W fuel expression
          pure (if isConstant answer then answer else .declaration declarations answer)
      | .delay expression => do pure (.delay (← integrateExpression W fuel expression))
      | .disjunction predicate alternative => do
          let predicate ← integrateExpression W fuel predicate
          integrateDisjunction W fuel predicate alternative
      | .openBlock block vars values actions => do
          let values ← values.mapM (forceValue W fuel)
          let actions ← actions.mapM (integrateAction W fuel)
          pure (.openBlock block vars values actions)
      | .procedure .. => integrateProcedure W fuel expression
      | .quotation block expression => do pure (.quotation block (← integrateExpression W fuel expression))
      | .reference block var => do
          match ← nextAnswer with
          | .integrate value delayed parents => do
              let new ← integrateName W fuel block parents value delayed
              markIntegrated var
              pure new
          | _ => pure (.reference block var)
      | .sequence actions => do
          let actions ← actions.mapM (integrateAction W fuel)
          constructor (sequenceMake actions)
      | .theEnvironment block => pure (.theEnvironment block)
      | .valueMarker => throw .wrongType

/-- An action, which is a marker or is integrated. -/
def integrateAction (W : Pass) : Nat → Expr → Integration Expr
  | 0, _ => throw .fuel
  | fuel + 1, action =>
      match action with
      | .valueMarker => pure .valueMarker
      | _ => integrateExpression W fuel action

/-- `delayed-integration/force`: the value of a definition is integrated now, or it has been when another expression
needed it. -/
def forceValue (W : Pass) : Nat → Expr → Integration Expr
  | 0, _ => throw .fuel
  | fuel + 1, value => do
      match ← nextAnswer with
      | .integrate value false _ => pure value
      | _ => integrateExpression W fuel value

/-- `integrate/name`, of a value that may be a delayed integration. -/
def integrateName (W : Pass) : Nat → Block → List Block → Expr → Bool → Integration Expr
  | 0, _, _, _, _ => throw .fuel
  | fuel + 1, block, parents, value, delayed =>
      if delayed then do
        let value ← integrateExpression W fuel value
        copyExpressionIntern block parents value
      else
        copyExpressionIntern block parents value

def integrateConditional (W : Pass) : Nat → Expr → Expr → Expr → Integration Expr
  | 0, _, _, _ => throw .fuel
  | fuel + 1, predicate, consequent, alternative =>
      match predicate with
      | .sequence actions =>
          match actions.getLast? with
          | none => throw .wrongType
          | some last => do
              let last ← integrateConditional W fuel last consequent alternative
              constructor (sequenceMake (actions.dropLast ++ [last]))
      | _ => do
          let never ← analyzed (neverFalse predicate)
          if never && W.enableConditionalFolding.noisyTest then do
            let consequent ← integrateExpression W fuel consequent
            constructor (sequenceMake [predicate, consequent])
          else do
            let always ← analyzed (alwaysFalse predicate)
            if always && W.enableConditionalFolding.noisyTest then do
              let alternative ← integrateExpression W fuel alternative
              constructor (sequenceMake [predicate, alternative])
            else do
              let consequent ← integrateExpression W fuel consequent
              pure (.conditional predicate consequent (← integrateExpression W fuel alternative))

def integrateDisjunction (W : Pass) : Nat → Expr → Expr → Integration Expr
  | 0, _, _ => throw .fuel
  | fuel + 1, predicate, alternative => do
      let never ← analyzed (neverFalse predicate)
      if never && W.enableDisjunctionFolding.noisyTest then
        pure predicate
      else do
        let always ← analyzed (alwaysFalse predicate)
        if always && W.enableDisjunctionFolding.noisyTest then do
          let alternative ← integrateExpression W fuel alternative
          constructor (sequenceMake [predicate, alternative])
        else
          match predicate with
          | .sequence actions =>
              match actions.getLast? with
              | none => throw .wrongType
              | some last => do
                  let last ← integrateDisjunction W fuel last alternative
                  constructor (sequenceMake (actions.dropLast ++ [last]))
          | _ => do pure (.disjunction predicate (← integrateExpression W fuel alternative))

def integrateProcedure (W : Pass) : Nat → Expr → Integration Expr
  | 0, _ => throw .fuel
  | fuel + 1, procedure =>
      match procedure with
      | .procedure block name required optional rest body => do
          let body ← integrateExpression W fuel body
          pure (.procedure block name required optional rest body)
      | _ => throw .wrongType

def integrateCombination (W : Pass) : Nat → Block → Expr → List Expr → Integration Expr
  | 0, _, _, _ => throw .fuel
  | fuel + 1, block, operator, operands =>
      match operator with
      | .access block' environment name => do
          let environment ← integrateExpression W fuel environment
          if environment.constantEq .systemGlobalEnvironment then do
            match ← nextAnswer with
            | .expand expression => integrateExpression W fuel expression
            | .integrate value _ parents => do
                let operator ← copyExpressionIntern block parents value
                integrateCombination W fuel block operator operands
            | .leave => makeCombination W block (.access block' environment name) operands
          else
            makeCombination W block (.access block' environment name) operands
      | .assignment .. | .delay _ | .theEnvironment _ => do
          let operator ← integrateExpression W fuel operator
          makeCombination W block operator operands
      | .constant value => do
          match ← elideDoubleNegative W operator operands with
          | some operand => pure operand
          | none =>
              match value with
              | .primitive p => do
                  match ← appliedOperands p operands with
                  | some (operator :: operands) => integrateCombination W fuel block operator operands
                  | some [] => throw .wrongType
                  | none => makeCombination W block operator operands
              | _ => integrateCombinationDefault W fuel block operator operands
      | .openBlock .. => message "INTERNAL-ERROR: integrate-combination 'open-block" []
      | .reference block' var => do
          match ← nextAnswer with
          | .expand expression => do
              markIntegrated var
              integrateExpression W fuel expression
          | .integrate value delayed parents => do
              let operator ← integrateName W fuel block' parents value delayed
              markIntegrated var
              integrateCombination W fuel block operator operands
          | .leave => makeCombination W block operator operands
      | .valueMarker => throw .wrongType
      | _ => integrateCombinationDefault W fuel block operator operands

def integrateCombinationDefault (W : Pass) : Nat → Block → Expr → List Expr → Integration Expr
  | 0, _, _, _ => throw .fuel
  | fuel + 1, block, operator, operands => do
      let operator ← integrateOperator W fuel operator
      match ← compoundOperator W fuel operator operands with
      | some procedure => do
          let operator ← integrateProcedure W fuel procedure
          makeCombination W block operator operands
      | none => makeCombination W block operator operands

/-- The operator of a combination, which is integrated once more when integrating it has made it a procedure. -/
def integrateOperator (W : Pass) : Nat → Expr → Integration Expr
  | 0, _ => throw .fuel
  | fuel + 1, operator =>
      match operator with
      | .procedure .. => integrateProcedure W fuel operator
      | _ => do
          let operator ← integrateExpression W fuel operator
          match operator with
          | .procedure .. => integrateProcedure W fuel operator
          | _ => pure operator

end

end MitScheme.Sf
