import MitScheme.Sf.Object

/-!
# The analyses of SF

The six questions that `analyze.scm` answers about an expression before it is run: what it can return, and whether
returning it is all that it does. No answer (`none`) is an error: the method of the value marker is looked up, and
there is none, or the last element of an empty list.
-/

namespace MitScheme.Sf

def primitiveBooleanPredicates : List String :=
  ["%record?", "&<", "&=", "&>", "bit-string?", "cell?", "char?", "eq?", "equal-fixnum?", "fixnum?",
    "flonum-equal?", "flonum-greater?", "flonum-less?", "flonum-negative?", "flonum-positive?", "flonum-zero?",
    "flonum?", "greater-than-fixnum?", "index-fixnum?", "integer-equal?", "integer-greater?", "integer-less?",
    "integer-negative?", "integer-positive?", "integer-zero?", "less-than-fixnum?", "negative-fixnum?", "negative?",
    "not", "null?", "object-type?", "pair?", "positive-fixnum?", "positive?", "string?", "vector?", "zero-fixnum?",
    "zero?"]

def effectFreePrimitives : List String :=
  ["%record?", "bit-string?", "cell?", "char?", "eq?", "fixnum?", "flonum?", "not", "null?", "object-type",
    "object-type?", "pair?", "string?", "vector?"]

/-- `(ucode-primitive not)` -/
def ucodeNot : Primitive := ⟨"not", some 1⟩

/-! ## Calls of known primitives

The three tests are made on a combination, which is given by its operator and the number of its operands. -/

/-- `expression/call-to-boolean-predicate?` -/
def callToBooleanPredicate (operator : Expr) (operands : Nat) : Bool :=
  match operator with
  | .constant (.primitive p) => primitiveBooleanPredicates.contains p.name && procedureArityValid p operands
  | _ => false

/-- `expression/call-to-effect-free-primitive?` -/
def callToEffectFreePrimitive (operator : Expr) (operands : Nat) : Bool :=
  match operator with
  | .constant (.primitive p) => effectFreePrimitives.contains p.name && procedureArityValid p operands
  | _ => false

/-- `expression/call-to-not?` -/
def callToNot (operator : Expr) (operands : Nat) : Bool :=
  match operator with
  | .constant (.primitive p) => p == ucodeNot && procedureArityValid p operands
  | _ => false

/-! ## Truth values -/

mutual

/-- `expression/always-false?` -/
def alwaysFalse : Expr → Option Bool
  | .access .. => some false
  | .assignment .. => some false
  | .combination _ operator operands =>
      if callToNot operator operands.length then
        match operands with
        | operand :: _ => neverFalse operand
        | [] => none
      else
        match operator with
        | .procedure _ _ _ _ _ body => alwaysFalse body
        | _ => some false
  | .conditional predicate consequent alternative =>
      (alwaysFalse predicate <||> alwaysFalse consequent) <&&>
        (neverFalse predicate <||> alwaysFalse alternative)
  | .constant value => some (value == .boolean false)
  | .declaration _ expression => alwaysFalse expression
  | .delay _ => some false
  | .disjunction predicate alternative => alwaysFalse predicate <&&> alwaysFalse alternative
  | .openBlock _ _ _ actions => lastAlwaysFalse actions
  | .procedure .. => some false
  | .quotation .. => some false
  | .reference .. => some false
  | .sequence actions => lastAlwaysFalse actions
  | .theEnvironment _ => some false
  | .valueMarker => none

/-- `(expression/always-false? (last actions))` -/
def lastAlwaysFalse : List Expr → Option Bool
  | [] => none
  | [action] => alwaysFalse action
  | _ :: action :: actions => lastAlwaysFalse (action :: actions)

/-- `expression/never-false?` -/
def neverFalse : Expr → Option Bool
  | .access .. => some false
  | .assignment .. => some false
  | .combination _ operator operands =>
      if callToNot operator operands.length then
        match operands with
        | operand :: _ => alwaysFalse operand
        | [] => none
      else
        match operator with
        | .procedure _ _ _ _ _ body => neverFalse body
        | _ => some false
  | .conditional predicate consequent alternative =>
      (alwaysFalse predicate <||> neverFalse consequent) <&&>
        (neverFalse predicate <||> neverFalse alternative)
  | .constant value => some (value != .boolean false)
  | .declaration _ expression => neverFalse expression
  | .delay _ => some true
  | .disjunction predicate alternative => neverFalse predicate <||> neverFalse alternative
  | .openBlock _ _ _ actions => lastNeverFalse actions
  | .procedure .. => some true
  | .quotation .. => some false
  | .reference .. => some false
  | .sequence actions => lastNeverFalse actions
  | .theEnvironment _ => some true
  | .valueMarker => none

/-- `(expression/never-false? (last actions))` -/
def lastNeverFalse : List Expr → Option Bool
  | [] => none
  | [action] => neverFalse action
  | _ :: action :: actions => lastNeverFalse (action :: actions)

end

mutual

/-- `expression/boolean?`. The body of a lambda expression is given to `boolean?` itself, which a node never
satisfies. -/
def isBoolean : Expr → Option Bool
  | .access .. => some false
  | .assignment .. => some false
  | .combination _ operator operands => some (callToBooleanPredicate operator operands.length)
  | .conditional predicate consequent alternative =>
      (alwaysFalse predicate <||> isBoolean consequent) <&&>
        (neverFalse predicate <||> isBoolean alternative)
  | .constant value => some (value == .boolean false || value == .boolean true)
  | .declaration _ expression => isBoolean expression
  | .delay _ => some false
  | .disjunction predicate alternative =>
      isBoolean predicate <&&> (neverFalse predicate <||> isBoolean alternative)
  | .openBlock _ _ _ actions => lastIsBoolean actions
  | .procedure .. => some false
  | .quotation .. => some false
  | .reference .. => some false
  | .sequence actions => lastIsBoolean actions
  | .theEnvironment _ => some false
  | .valueMarker => none

/-- `(expression/boolean? (last actions))` -/
def lastIsBoolean : List Expr → Option Bool
  | [] => none
  | [action] => isBoolean action
  | _ :: action :: actions => lastIsBoolean (action :: actions)

end

mutual

/-- `expression/effect-free?` -/
def effectFree : Expr → Option Bool
  | .access _ environment _ => effectFree environment
  | .assignment .. => some false
  | .combination _ operator operands =>
      everyEffectFree operands <&&>
        if callToEffectFreePrimitive operator operands.length then some true
        else
          match operator with
          | .procedure _ _ _ _ _ body => effectFree body
          | _ => some false
  | .conditional predicate consequent alternative =>
      effectFree predicate <&&> (alwaysFalse predicate <||> effectFree consequent) <&&>
        (neverFalse predicate <||> effectFree alternative)
  | .constant _ => some true
  | .declaration _ expression => effectFree expression
  | .delay _ => some true
  | .disjunction predicate alternative =>
      effectFree predicate <&&> (neverFalse predicate <||> effectFree alternative)
  | .openBlock .. => some false
  | .procedure .. => some true
  | .quotation .. => some false
  | .reference .. => some true
  | .sequence actions => everyEffectFree actions
  | .theEnvironment _ => some true
  | .valueMarker => none

/-- `(every expression/effect-free? expressions)` -/
def everyEffectFree : List Expr → Option Bool
  | [] => some true
  | expression :: expressions => effectFree expression <&&> everyEffectFree expressions

end

/-! ## Pure truth values -/

mutual

/-- `expression/pure-false?` -/
def pureFalse : Expr → Option Bool
  | .access .. => some false
  | .assignment .. => some false
  | .combination _ operator operands =>
      if callToNot operator operands.length then
        match operands with
        | operand :: _ => pureTrue operand
        | [] => none
      else
        match operator with
        | .procedure _ _ _ _ _ body => everyEffectFree operands <&&> pureFalse body
        | _ => some false
  | .conditional predicate consequent alternative =>
      effectFree predicate <&&> (alwaysFalse predicate <||> pureFalse consequent) <&&>
        (neverFalse predicate <||> pureFalse alternative)
  | .constant value => some (value == .boolean false)
  | .declaration _ expression => pureFalse expression
  | .delay _ => some false
  | .disjunction predicate alternative => pureFalse predicate <&&> pureFalse alternative
  | .openBlock .. => some false
  | .procedure .. => some false
  | .quotation .. => some false
  | .reference .. => some false
  | .sequence actions => lastPureFalse actions
  | .theEnvironment _ => some false
  | .valueMarker => none

/-- The actions before the last are effect free, and the last is false. -/
def lastPureFalse : List Expr → Option Bool
  | [] => none
  | [action] => pureFalse action
  | first :: action :: actions => effectFree first <&&> lastPureFalse (action :: actions)

/-- `expression/pure-true?` -/
def pureTrue : Expr → Option Bool
  | .access .. => some false
  | .assignment .. => some false
  | .combination _ operator operands =>
      if callToNot operator operands.length then
        match operands with
        | operand :: _ => pureFalse operand
        | [] => none
      else
        match operator with
        | .procedure _ _ _ _ _ body => everyEffectFree operands <&&> pureTrue body
        | _ => some false
  | .conditional predicate consequent alternative =>
      effectFree predicate <&&> (alwaysFalse predicate <||> pureTrue consequent) <&&>
        (neverFalse predicate <||> pureTrue alternative)
  | .constant value => some (value == .boolean true)
  | .declaration _ expression => pureTrue expression
  | .delay _ => some false
  | .disjunction predicate alternative =>
      effectFree predicate <&&> isBoolean predicate <&&> pureTrue alternative
  | .openBlock .. => some false
  | .procedure .. => some false
  | .quotation .. => some false
  | .reference .. => some false
  | .sequence actions => lastPureTrue actions
  | .theEnvironment _ => some false
  | .valueMarker => none

/-- The actions before the last are effect free, and the last is true. -/
def lastPureTrue : List Expr → Option Bool
  | [] => none
  | [action] => pureTrue action
  | first :: action :: actions => effectFree first <&&> lastPureTrue (action :: actions)

end

end MitScheme.Sf
