import MitScheme.Runtime.SyntaxOutput

/-!
# The objects of SF

The data types of `object.scm`. `sf` turns a program into a tree of these nodes, rewrites it, and turns the result
back into SCode. The node's own SCode, which every record carries along, is left out.
-/

namespace MitScheme.Sf

open SyntaxOutput (Symbol)

/-- A primitive procedure, with the number of its arguments when that is fixed. -/
structure Primitive where
  name : String
  arity : Option Nat
deriving DecidableEq, Repr

def procedureArityValid (p : Primitive) (n : Nat) : Bool := p.arity.all (· == n)

/-- What a constant can be: the objects that the passes of `sf` look at, and the others. -/
inductive Object where
  | boolean (b : Bool)
  | primitive (p : Primitive)
  | emptyList
  | systemGlobalEnvironment
  | other (n : Nat)
deriving DecidableEq, Repr

/-- A variable is known by its identity. Its name and its flags can change, and are kept apart. -/
abbrev Variable := Nat

/-- A declaration as it was written. -/
structure Declaration where
  operation : String
deriving DecidableEq, Repr

structure Block where
  safe : Bool
  declarations : List Declaration
  boundVariables : List Variable
deriving DecidableEq, Repr

/-- The nodes of `enumeration/expression`. The marker is none of them, but stands among the actions of an open block
where one of its values is to be given to its variable. -/
inductive Expr where
  | access (block : Block) (environment : Expr) (name : Symbol)
  | assignment (block : Block) (var : Variable) (value : Expr)
  | combination (block : Block) (operator : Expr) (operands : List Expr)
  | conditional (predicate consequent alternative : Expr)
  | constant (value : Object)
  | declaration (declarations : List Declaration) (expression : Expr)
  | delay (expression : Expr)
  | disjunction (predicate alternative : Expr)
  | openBlock (block : Block) (vars : List Variable) (values actions : List Expr)
  | procedure (block : Block) (name : Symbol) (required optional : List Variable) (rest : Option Variable)
      (body : Expr)
  | quotation (block : Block) (expression : Expr)
  | reference (block : Block) (var : Variable)
  | sequence (actions : List Expr)
  | theEnvironment (block : Block)
  | valueMarker

namespace Expr

theorem induct {P : Expr → Prop}
    (access : ∀ block environment name, P environment → P (.access block environment name))
    (assignment : ∀ block var value, P value → P (.assignment block var value))
    (combination : ∀ block operator operands, P operator → (∀ operand ∈ operands, P operand) →
      P (.combination block operator operands))
    (conditional : ∀ predicate consequent alternative, P predicate → P consequent → P alternative →
      P (.conditional predicate consequent alternative))
    (constant : ∀ value, P (.constant value))
    (declaration : ∀ declarations expression, P expression → P (.declaration declarations expression))
    (delay : ∀ expression, P expression → P (.delay expression))
    (disjunction : ∀ predicate alternative, P predicate → P alternative → P (.disjunction predicate alternative))
    (openBlock : ∀ block vars values actions, (∀ value ∈ values, P value) → (∀ action ∈ actions, P action) →
      P (.openBlock block vars values actions))
    (procedure : ∀ block name required optional rest body, P body →
      P (.procedure block name required optional rest body))
    (quotation : ∀ block expression, P expression → P (.quotation block expression))
    (reference : ∀ block var, P (.reference block var))
    (sequence : ∀ actions, (∀ action ∈ actions, P action) → P (.sequence actions))
    (theEnvironment : ∀ block, P (.theEnvironment block))
    (valueMarker : P .valueMarker) (e : Expr) : P e :=
  @Expr.rec P (fun es => ∀ e ∈ es, P e)
    access assignment combination conditional constant declaration delay disjunction openBlock procedure quotation
    reference sequence theEnvironment valueMarker (fun _ h => nomatch h)
    (fun _ _ hhead htail => List.forall_mem_cons.mpr ⟨hhead, htail⟩) e

end Expr

end MitScheme.Sf
