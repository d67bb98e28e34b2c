import MitScheme.Lib.Programs
import MitScheme.Sf.Combinations

/-!
# Copying expressions

The state of the pass that integrates, in which the names and flags of variables are, and the copying of expressions
in `copy.scm`. What the tables of operations and the environment say about a variable is taken from a list of answers.
A run of the pass is one for some such list, and what is shown of the runs for every list holds of it.
-/

namespace MitScheme.Sf

open SyntaxOutput (Symbol)
open Frames (Program)

/-- What is said about a variable that is met: to leave it; to integrate a value, which may still have to be
integrated itself, at a block that has these parents; or an expression that its expander has made of the call. -/
inductive Answer where
  | leave
  | integrate (value : Expr) (delayed : Bool) (parents : List Block)
  | expand (expression : Expr)

structure State where
  /-- `variable/name` -/
  name : Variable → Symbol
  /-- `variable/block` -/
  block : Variable → Block
  /-- The flag `integrated`. -/
  integrated : Variable → Bool
  /-- The variables that there are. -/
  allocated : Nat
  /-- The uninterned symbols that there are. -/
  generated : Nat
  /-- The answers that are still to be given. -/
  answers : List Answer
  /-- The parameters of the procedures that have been given another body, for the proofs only. -/
  hackified : List Variable

inductive IntegrationError where
  | constructor (failure : Failure)
  | message (text : String) (irritants : List Symbol)
  /-- A node that has no method, or a part of an empty list. -/
  | wrongType
  | fuel

abbrev Integration (α : Type) := Program State IntegrationError α

/-- The switches, and the primitive procedures. -/
structure Pass where
  enableConstantFolding : Switch
  enableArgumentDeletion : Switch
  enableConditionalFolding : Switch
  enableDisjunctionFolding : Switch
  enableElideDoubleNegatives : Switch
  applyPrimitive : Primitive → List Object → Option Object

/-- What the constructors use. -/
def Pass.settings (W : Pass) (s : State) : Settings where
  enableConstantFolding := W.enableConstantFolding
  enableArgumentDeletion := W.enableArgumentDeletion
  integrated := s.integrated
  applyPrimitive := W.applyPrimitive

namespace Integration

def constructor {α : Type} : Except Failure α → Integration α
  | .ok a => pure a
  | .error failure => throw (.constructor failure)

/-- The answer of an analysis. -/
def analyzed {α : Type} (x : Option α) : Integration α := constructor (answered x)

def message {α : Type} (text : String) (irritants : List Symbol) : Integration α := throw (.message text irritants)

/-- The next answer of the tables. -/
def nextAnswer : Integration Answer := do
  let s ← get
  match s.answers with
  | [] => pure .leave
  | a :: answers => do
      modify fun s => { s with answers := answers }
      pure a

/-- `variable/integrated!` -/
def markIntegrated (var : Variable) : Integration Unit :=
  modify fun s => { s with integrated := fun v => v = var || s.integrated v }

end Integration

open Integration (constructor analyzed message nextAnswer markIntegrated)

/-- `(set-variable/name! var (string->uninterned-symbol (symbol->string (variable/name var))))` -/
def State.rename (s : State) (var : Variable) : State :=
  { s with
    name := fun v => if v = var then .uninterned (s.name var).name s.generated else s.name v
    generated := s.generated + 1 }

/-! ## Copying -/

/-- The variables of a block are copied to new ones, which have their names and flags. -/
def State.allocate (s : State) (block : Block) (old : List Variable) : State :=
  let source (v : Variable) : Variable := if s.allocated ≤ v then old.getD (v - s.allocated) v else v
  { s with
    name := fun v => s.name (source v)
    integrated := fun v => s.integrated (source v)
    block := fun v => if s.allocated ≤ v then block else s.block v
    allocated := s.allocated + old.length }

/-- `block/lookup-name`, in a block and its parents. -/
def lookupName (s : State) (blocks : List Block) (name : Symbol) : Option Variable :=
  blocks.findSome? fun block => block.boundVariables.find? fun v => s.name v = name

/-- The loop of `copy/variable/free/intern`, at a block and its parents. -/
def copyVariableFreeIntern (var : Variable) (name : Symbol) : List Block → Integration Variable
  | [] => throw .wrongType
  | block :: parents => do
      let s ← get
      match lookupName s (block :: parents) name with
      | none => message "Unable to find free variable during copy:" [name]
      | some var' =>
          if var' = var then
            pure var
          else if parents.isEmpty then
            message "Unable to find free variable during copy:" [name]
          else if (s.block var').safe then do
            modify fun s => s.rename var'
            copyVariableFreeIntern var name parents
          else
            message "Integration requires renaming unsafe variable:" [name]

/-- An environment of copied variables. -/
abbrev Copies := List (Variable × Variable)

def copyVariable (rootBlock : List Block) (environment : Copies) (var : Variable) : Integration Variable := do
  match environment.lookup var with
  | some var' => pure var'
  | none => do
      let s ← get
      copyVariableFreeIntern var (s.name var) rootBlock

/-- `make-renamer` -/
def renamer (environment : Copies) (var : Variable) : Integration Variable := do
  match environment.lookup var with
  | some var' => pure var'
  | none => do
      let s ← get
      message "Variable missing during copy operation:" [s.name var]

/-- `copy/block`. The variables of a block have different names, so each gets a variable of its own. -/
def copyBlock (environment : Copies) (block : Block) : Integration (Block × Copies) := do
  let s ← get
  let newBound := List.range' s.allocated block.boundVariables.length
  let result : Block := ⟨block.safe, block.declarations, newBound.reverse⟩
  modify fun s => s.allocate result block.boundVariables
  pure (result, block.boundVariables.zip newBound ++ environment)

mutual

/-- `copy/expression`, where the root block is given with its parents. -/
def copyExpression (rootBlock : List Block) (block : Block) (environment : Copies) : Expr → Integration Expr
  | .access block' expression name => do
      let (block, environment) ← copyBlock environment block'
      pure (.access block (← copyExpression rootBlock block environment expression) name)
  | .assignment _ var value => do
      let var ← copyVariable rootBlock environment var
      pure (.assignment block var (← copyExpression rootBlock block environment value))
  | .combination _ operator operands => do
      let operator ← copyExpression rootBlock block environment operator
      pure (.combination block operator (← copyExpressions rootBlock block environment operands))
  | .conditional predicate consequent alternative => do
      let predicate ← copyExpression rootBlock block environment predicate
      let consequent ← copyExpression rootBlock block environment consequent
      pure (.conditional predicate consequent (← copyExpression rootBlock block environment alternative))
  | .constant value => pure (.constant value)
  | .declaration declarations expression => do
      pure (.declaration declarations (← copyExpression rootBlock block environment expression))
  | .delay expression => do pure (.delay (← copyExpression rootBlock block environment expression))
  | .disjunction predicate alternative => do
      let predicate ← copyExpression rootBlock block environment predicate
      pure (.disjunction predicate (← copyExpression rootBlock block environment alternative))
  | .openBlock block' vars values actions => do
      let (block, environment) ← copyBlock environment block'
      let vars ← vars.mapM (renamer environment)
      let values ← copyExpressions rootBlock block environment values
      pure (.openBlock block vars values (← copyActions rootBlock block environment actions))
  | .procedure block' name required optional rest body => do
      let (block, environment) ← copyBlock environment block'
      let required ← required.mapM (renamer environment)
      let optional ← optional.mapM (renamer environment)
      let rest ← rest.mapM (renamer environment)
      pure (.procedure block name required optional rest (← copyExpression rootBlock block environment body))
  | .quotation block expression => do pure (.quotation block (← copyExpression [] block [] expression))
  | .reference _ var => do pure (.reference block (← copyVariable rootBlock environment var))
  | .sequence actions => do
      let actions ← copyExpressions rootBlock block environment actions
      constructor (sequenceMake actions)
  | .theEnvironment _ => message "Attempt to integrate expression containing (THE-ENVIRONMENT)" []
  | .valueMarker => throw .wrongType

def copyExpressions (rootBlock : List Block) (block : Block) (environment : Copies) :
    List Expr → Integration (List Expr)
  | [] => pure []
  | expression :: expressions => do
      let expression ← copyExpression rootBlock block environment expression
      pure (expression :: (← copyExpressions rootBlock block environment expressions))

/-- The actions of an open block. -/
def copyActions (rootBlock : List Block) (block : Block) (environment : Copies) :
    List Expr → Integration (List Expr)
  | [] => pure []
  | .valueMarker :: actions => do pure (.valueMarker :: (← copyActions rootBlock block environment actions))
  | action :: actions => do
      let action ← copyExpression rootBlock block environment action
      pure (action :: (← copyActions rootBlock block environment actions))

end

def copyExpressionIntern (block : Block) (parents : List Block) (expression : Expr) : Integration Expr :=
  copyExpression (block :: parents) block [] expression

end MitScheme.Sf
