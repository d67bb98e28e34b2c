import MitScheme.Sf.Analyze

/-!
# What expressions mean

The interpreter, run on the nodes of SF, with a record of what it does that others can see. The operations on
environments and on memory, and what the primitives do, are those of a run time that is given; of the primitives the
analyses rely on, it is only known that they return what their lists in `object.scm` say.
-/

namespace MitScheme.Sf

open SyntaxOutput (Symbol)

/-- What can be the value of an expression. -/
inductive Value (Env : Type) where
  | object (o : Object)
  | closure (block : Block) (name : Symbol) (required optional : List Variable) (rest : Option Variable) (body : Expr)
      (env : Env)
  | promise (expression : Expr) (env : Env)
  | environment (env : Env)
  | quotation (expression : Expr)

namespace Value

variable {Env : Type}

/-- The object `#f`, the only one that a conditional takes for false. -/
def false : Value Env := .object (.boolean Bool.false)

/-- The object `#t` -/
def true : Value Env := .object (.boolean Bool.true)

/-- Whether the value is `#f`. -/
def isFalse : Value Env → Bool
  | .object (.boolean b) => !b
  | _ => Bool.false

theorem isFalse_iff (v : Value Env) : v.isFalse = Bool.true ↔ v = .false := by
  constructor
  · intro h
    unfold isFalse at h
    split at h
    · rename_i b
      cases b
      · rfl
      · cases h
    · cases h
  · rintro rfl
    rfl

end Value

/-- What a run does besides returning a value. The call of a procedure counts when the procedure is not known where
it is called. -/
inductive Effect where
  | assignment (var : Variable)
  | definition (var : Variable)
  | call
deriving DecidableEq, Repr

/-- The parts of the run time that the nodes refer to. -/
structure RunTime (Env Memory : Type) where
  lookup : Env → Variable → Memory → Option (Value Env)
  symbolValue : Value Env → Symbol → Memory → Option (Value Env)
  assign : Env → Variable → Value Env → Memory → Option (Value Env × Memory)
  define : Env → Variable → Value Env → Memory → Option (Value Env × Memory)
  /-- Binds the parameters of a lambda expression to its arguments. -/
  bind : Env → List Variable → List Variable → Option Variable → List (Value Env) → Memory → Option (Env × Memory)
  /-- Makes the variables of an open block, which have no values yet. -/
  scan : Env → List Variable → Memory → Option (Env × Memory)
  primitive : Primitive → List (Value Env) → Memory → Option (Value Env × Memory)
  /-- Applies what is neither a primitive nor made by a lambda expression. -/
  applyOther : Value Env → List (Value Env) → Memory → Option (Value Env × Memory)
  not_value : ∀ {v w : Value Env} {m m' : Memory}, primitive ucodeNot [v] m = some (w, m') →
    w = if v.isFalse then .true else .false
  predicate_value : ∀ {p : Primitive} {vs : List (Value Env)} {w : Value Env} {m m' : Memory},
    p.name ∈ primitiveBooleanPredicates → primitive p vs m = some (w, m') → w = .false ∨ w = .true

/-- The memory, and the effects that there have been. -/
structure Machine (Memory : Type) where
  memory : Memory
  effects : List Effect

/-- A part of a run, which may end in an error. -/
abbrev Run (Memory : Type) := StateT (Machine Memory) Option

namespace Run

variable {Memory α : Type}

/-- Looks at the memory. -/
def read (f : Memory → Option α) : Run Memory α := fun s => (f s.memory).map fun a => (a, s)

/-- Changes the memory. -/
def perform (f : Memory → Option (α × Memory)) : Run Memory α :=
  fun s => (f s.memory).map fun r => (r.1, { s with memory := r.2 })

def effect (e : Effect) : Run Memory Unit := modify fun s => { s with effects := s.effects ++ [e] }

end Run

/-- Whether it is known at the call what will be called. -/
def knownOperator : Expr → Bool
  | .procedure .. => true
  | .constant (.primitive p) => effectFreePrimitives.contains p.name
  | _ => false

/-- The effect of calling the value of the operator. -/
def Run.noteCall {Memory : Type} (operator : Expr) : Run Memory Unit :=
  if knownOperator operator then pure () else Run.effect .call

section

variable {Env Memory : Type}

/-- Calls a procedure. Expressions are run by `run`. -/
def apply (R : RunTime Env Memory) (run : Env → Expr → Run Memory (Value Env)) (operator : Value Env)
    (operands : List (Value Env)) : Run Memory (Value Env) :=
  match operator with
  | .closure _ _ required optional rest body env => do
      let env ← Run.perform (R.bind env required optional rest operands)
      run env body
  | .object (.primitive p) => Run.perform (R.primitive p operands)
  | operator => Run.perform (R.applyOther operator operands)

/-- The operands of a combination are run from the last to the first. -/
def evalOperands (run : Expr → Run Memory (Value Env)) : List Expr → Run Memory (List (Value Env))
  | [] => pure []
  | operand :: operands => do
      let vs ← evalOperands run operands
      let v ← run operand
      pure (v :: vs)

/-- The value is that of the last action. -/
def evalSequence (run : Expr → Run Memory (Value Env)) : List Expr → Run Memory (Value Env)
  | [] => failure
  | [action] => run action
  | first :: action :: actions => do
      let _ ← run first
      evalSequence run (action :: actions)

/-- An action of an open block. At the marker the next variable is given the next value. -/
def evalAction (R : RunTime Env Memory) (run : Expr → Run Memory (Value Env)) (env : Env) (vars : List Variable)
    (values : List Expr) (action : Expr) : Run Memory (Value Env × List Variable × List Expr) :=
  match vars, values, action with
  | var :: vars, value :: values, .valueMarker => do
      let v ← run value
      Run.effect (.definition var)
      let name ← Run.perform (R.define env var v)
      pure (name, vars, values)
  | vars, values, action => do
      let v ← run action
      pure (v, vars, values)

/-- The actions of an open block. -/
def evalBlock (R : RunTime Env Memory) (run : Expr → Run Memory (Value Env)) (env : Env) :
    List Variable → List Expr → List Expr → Run Memory (Value Env)
  | _, _, [] => failure
  | vars, values, [action] => do
      let r ← evalAction R run env vars values action
      pure r.1
  | vars, values, first :: action :: actions => do
      let r ← evalAction R run env vars values first
      evalBlock R run env r.2.1 r.2.2 (action :: actions)

/-- Runs an expression, down to a depth that is given. -/
def eval (R : RunTime Env Memory) : Nat → Env → Expr → Run Memory (Value Env)
  | 0, _, _ => failure
  | depth + 1, env, e =>
    match e with
    | .access _ environment name => do
        let v ← eval R depth env environment
        Run.read (R.symbolValue v name)
    | .assignment _ var value => do
        let v ← eval R depth env value
        Run.effect (.assignment var)
        Run.perform (R.assign env var v)
    | .combination _ operator operands => do
        let vs ← evalOperands (eval R depth env) operands
        let v ← eval R depth env operator
        Run.noteCall operator
        apply R (eval R depth) v vs
    | .conditional predicate consequent alternative => do
        let v ← eval R depth env predicate
        if v.isFalse then eval R depth env alternative else eval R depth env consequent
    | .constant value => pure (.object value)
    | .declaration _ expression => eval R depth env expression
    | .delay expression => pure (.promise expression env)
    | .disjunction predicate alternative => do
        let v ← eval R depth env predicate
        if v.isFalse then eval R depth env alternative else pure v
    | .openBlock _ vars values actions => do
        let env ← Run.perform (R.scan env vars)
        evalBlock R (eval R depth env) env vars values actions
    | .procedure block name required optional rest body =>
        pure (.closure block name required optional rest body env)
    | .quotation _ expression => pure (.quotation expression)
    | .reference _ var => Run.read (R.lookup env var)
    | .sequence actions => evalSequence (eval R depth env) actions
    | .theEnvironment _ => pure (.environment env)
    | .valueMarker => failure

end

end MitScheme.Sf
