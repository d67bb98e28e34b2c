import MitScheme.Sf.Object

/-!
# Expressions that transform produces

`xform.scm` makes an open block of a body with definitions, which have been scanned out of it. What holds of the
nodes it makes is that they are well formed: no sequence is empty, and a marker stands among the actions of an open
block for each of its values and nowhere else.
-/

namespace MitScheme.Sf

open SyntaxOutput (Symbol)

/-- Whether the node is `open-block/value-marker`. -/
def Expr.isValueMarker : Expr → Bool
  | .valueMarker => true
  | _ => false

theorem Expr.isValueMarker_iff {e : Expr} : e.isValueMarker = true ↔ e = .valueMarker := by
  constructor
  · intro h
    cases e with
    | valueMarker => rfl
    | _ => cases h
  · intro h
    rw [h]
    rfl

mutual

def wellFormed : Expr → Bool
  | .access _ environment _ => wellFormed environment
  | .assignment _ _ value => wellFormed value
  | .combination _ operator operands => wellFormed operator && everyWellFormed operands
  | .conditional predicate consequent alternative =>
      wellFormed predicate && wellFormed consequent && wellFormed alternative
  | .constant _ => true
  | .declaration _ expression => wellFormed expression
  | .delay expression => wellFormed expression
  | .disjunction predicate alternative => wellFormed predicate && wellFormed alternative
  | .openBlock _ vars values actions =>
      !actions.isEmpty && actionsWellFormed actions && everyWellFormed values &&
        vars.length == values.length && actions.countP Expr.isValueMarker == values.length
  | .procedure _ _ _ _ _ body => wellFormed body
  | .quotation _ expression => wellFormed expression
  | .reference .. => true
  | .sequence actions => !actions.isEmpty && everyWellFormed actions
  | .theEnvironment _ => true
  | .valueMarker => false

def everyWellFormed : List Expr → Bool
  | [] => true
  | e :: es => wellFormed e && everyWellFormed es

/-- The actions of an open block may be markers. -/
def actionsWellFormed : List Expr → Bool
  | [] => true
  | action :: actions => (action.isValueMarker || wellFormed action) && actionsWellFormed actions

end

theorem everyWellFormed_iff {es : List Expr} : everyWellFormed es = true ↔ ∀ e ∈ es, wellFormed e = true := by
  induction es with
  | nil => simp [everyWellFormed]
  | cons e es ih => rw [everyWellFormed, Bool.and_eq_true, ih, List.forall_mem_cons]

variable {actions : List Expr}

theorem actionsWellFormed_iff :
    actionsWellFormed actions = true ↔ ∀ e ∈ actions, e = .valueMarker ∨ wellFormed e = true := by
  induction actions with
  | nil => simp [actionsWellFormed]
  | cons action actions ih =>
      rw [actionsWellFormed, Bool.and_eq_true, Bool.or_eq_true, Expr.isValueMarker_iff, ih, List.forall_mem_cons]

/-- An action of a scanned body, with its parts transformed. If it is an assignment, there is its name and its
value. -/
structure BodyAction where
  assigned : Option (Symbol × Expr)
  expression : Expr

/-- The loop of `transform/open-block*`. The names that were scanned out are expected to be assigned in their order;
the values and the actions of the block are returned. -/
def transformActions : List Symbol → List BodyAction → Option (List Expr × List Expr)
  | [], actions => some ([], actions.map BodyAction.expression)
  | _ :: _, [] => none
  | name :: names, action :: actions =>
    match action.assigned with
    | some (name', value) =>
        if name' = name then
          (transformActions names actions).map fun r => (value :: r.1, .valueMarker :: r.2)
        else (transformActions (name :: names) actions).map fun r => (r.1, action.expression :: r.2)
    | none => (transformActions (name :: names) actions).map fun r => (r.1, action.expression :: r.2)

theorem not_isValueMarker {e : Expr} (h : wellFormed e = true) : e.isValueMarker = false := by
  rw [Bool.eq_false_iff, ne_eq, Expr.isValueMarker_iff]
  rintro rfl
  cases h

end MitScheme.Sf
