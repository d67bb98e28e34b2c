import MitScheme.Runtime.SyntaxOutput

/-!
# Alpha-equivalence, and when renaming may fail it

Two expressions are alpha-equivalent when they have the same shape and every reference,
assignment and `unassigned?` test refers to the same binder, or to the same free name.

A bound identifier ends up with one of two names: with the symbol it unmaps to, if it was
never renamed or its binder restores it, and with a generated one otherwise. Two
identifiers clash when they end up with the same name. That can happen in two ways: both
are called after the same symbol, or both are generated in the same frame, from different
symbols that are spelled alike.
-/

namespace MitScheme.SyntaxOutput

variable {T : Type}

/-! ## Binding structure -/

/-- What an identifier refers to: a position of one of the binders around it, counted from
the inside, or a free name. -/
inductive Reference where
  | bound (depth position : Nat)
  | free (name : Symbol)
deriving DecidableEq, Repr

/-- The same reference, seen from inside one more binder. -/
def Reference.up : Reference → Reference
  | .bound depth position => .bound (depth + 1) position
  | .free name => .free name

/-- What an identifier refers to below the binders `scope`, innermost first. -/
def resolve : List (List Symbol) → Symbol → Reference
  | [], x => .free x
  | bound :: scope, x => if x ∈ bound then .bound 0 (bound.idxOf x) else (resolve scope x).up

mutual

/-- Alpha-equivalence of two expressions below binders. -/
def AlphaEquivalent : List (List Symbol) → List (List Symbol) → Expr T → Expr T → Prop
  | scope, scope', .variable x, .variable x' => resolve scope x = resolve scope' x'
  | scope, scope', .assignment x value, .assignment x' value' =>
      resolve scope x = resolve scope' x' ∧ AlphaEquivalent scope scope' value value'
  | scope, scope', .unassignedP x, .unassignedP x' => resolve scope x = resolve scope' x'
  | scope, scope', .lambda pattern bound body, .lambda pattern' bound' body' =>
      pattern = pattern' ∧ bound.length = bound'.length ∧ (bound.Nodup → bound'.Nodup)
        ∧ AlphaEquivalent (bound :: scope) (bound' :: scope') body body'
  | scope, scope', .openBlock bound declarations body, .openBlock bound' declarations' body' =>
      declarations.map Declaration.text = declarations'.map Declaration.text
        ∧ bound.length = bound'.length ∧ (bound.Nodup → bound'.Nodup)
        ∧ AlphaEquivalent (bound :: scope) (bound' :: scope') body body'
  | scope, scope', .declaration text e, .declaration text' e' =>
      text.map Declaration.text = text'.map Declaration.text ∧ AlphaEquivalent scope scope' e e'
  | scope, scope', .node kind es, .node kind' es' =>
      kind = kind' ∧ AlphaEquivalents scope scope' es es'
  | _, _, .constant c, .constant c' => c = c'
  | _, _, _, _ => False

/-- Alpha-equivalence of lists of expressions. -/
def AlphaEquivalents : List (List Symbol) → List (List Symbol) → List (Expr T) → List (Expr T) →
    Prop
  | _, _, [], [] => True
  | scope, scope', e :: es, e' :: es' =>
      AlphaEquivalent scope scope' e e' ∧ AlphaEquivalents scope scope' es es'
  | _, _, _, _ => False

end

mutual

/-- The free references, assignments and `unassigned?` tests of an expression. -/
def references : Expr T → List Symbol
  | .variable x => [x]
  | .assignment x value => x :: references value
  | .unassignedP x => [x]
  | .lambda _ bound body => (references body).filter (· ∉ bound)
  | .openBlock bound _ body => (references body).filter (· ∉ bound)
  | .declaration _ e => references e
  | .node _ es => referencesList es
  | .constant _ => []

def referencesList : List (Expr T) → List Symbol
  | [] => []
  | e :: es => references e ++ referencesList es

end

mutual

/-- The binders in an expression: what they bind, and where. -/
def binders : Expr T → List (List Symbol × Expr T)
  | .variable _ => []
  | .assignment _ value => binders value
  | .unassignedP _ => []
  | .lambda _ bound body => (bound, body) :: binders body
  | .openBlock bound _ body => (bound, body) :: binders body
  | .declaration _ e => binders e
  | .node _ es => bindersList es
  | .constant _ => []

def bindersList : List (Expr T) → List (List Symbol × Expr T)
  | [] => []
  | e :: es => binders e ++ bindersList es

end

mutual

/-- All the identifiers of an expression, in the order in which they are replaced. -/
def occurrences : Expr T → List Symbol
  | .variable x => [x]
  | .assignment x value => occurrences value ++ [x]
  | .unassignedP x => [x]
  | .lambda _ bound body => occurrences body ++ bound
  | .openBlock bound declarations body =>
      occurrences body ++ declarations.flatMap Declaration.identifiers ++ bound
  | .declaration text e => occurrences e ++ text.flatMap Declaration.identifiers
  | .node _ es => occurrencesList es
  | .constant _ => []

def occurrencesList : List (Expr T) → List Symbol
  | [] => []
  | e :: es => occurrences e ++ occurrencesList es

end

/-- A symbol of the shape `.name.N` or `.name.N-I`. -/
def GeneratedShape (s : Symbol) : Prop :=
  (∃ name n, s = mapInternedSymbol name n) ∨ ∃ symbol n k, s = mapIndexedSymbol symbol n k

/-- An identifier made by `rename-identifier`. -/
def Renamed (db : RenameDatabase) (i : Symbol) : Prop := (db.unmappingTable i).isSome

/-- The output of the syntaxer. -/
structure WellFormed (db : RenameDatabase) (e : Expr T) : Prop where
  /-- Nothing has been generated yet. -/
  fresh : ∀ s, db.idTable s = []
  /-- No binder binds an identifier twice. -/
  nodup : ∀ binder ∈ binders e, binder.1.Nodup
  /-- A renamed identifier is bound wherever it is used. -/
  bound : ∀ i ∈ references e, ¬ Renamed db i
  /-- A renamed identifier is bound by only one binder. -/
  once : ∀ i, Renamed db i → ((binders e).filter fun binder => i ∈ binder.1).length ≤ 1
  /-- No source symbol looks like a generated one. -/
  source : ∀ i ∈ occurrences e, ¬ GeneratedShape (unmapIdentifier db i)

/-- A binder restores an identifier: no other identifier that unmaps to the same symbol is free
in its body, or bound later in the same list. -/
def Restores (db : RenameDatabase) (binder : List Symbol × Expr T) (i : Symbol) : Prop :=
  ∃ before later, binder.1 = before ++ i :: later
    ∧ (∀ j ∈ references binder.2, j ∉ binder.1 → unmapIdentifier db i = unmapIdentifier db j →
        i = j)
    ∧ unmapIdentifier db i ∉ later.map (unmapIdentifier db)

/-- An identifier keeps the symbol it unmaps to. -/
def Kept (db : RenameDatabase) (e : Expr T) (i : Symbol) : Prop :=
  ¬ Renamed db i ∨ ∃ binder ∈ binders e, Restores db binder i

open Classical in
/-- The identifier that `j` stands for, if a name with an index is generated for it in the
frame `id` and after the symbol `s`. -/
noncomputable def indexed (db : RenameDatabase) (e : Expr T) (s : Symbol) (id : RenameId)
    (j : Symbol) : Option Identifier :=
  match db.unmappingTable j with
  | none => none
  | some (.symbol (.interned _), _) => none
  | some (identifier, id') =>
      if ¬ Kept db e j ∧ identifierToSymbol identifier = s ∧ id' = id then some identifier
      else none

/-- The number that tells an identifier from the others of its symbol and frame: its position
among them in the order of their first replacement. -/
noncomputable def rank (db : RenameDatabase) (e : Expr T) (identifier : Identifier)
    (id : RenameId) : Nat :=
  ((occurrences e).reverse.filterMap
    (indexed db e (identifierToSymbol identifier) id)).dedup.reverse.idxOf identifier

/-- Two identifiers are given the same name: they were renamed in the same frame, from
different symbols that are spelled alike, and have the same number. -/
def SameGenerated (db : RenameDatabase) (e : Expr T) (i j : Symbol) : Prop :=
  ∃ identifier identifier' id, db.unmappingTable i = some (identifier, id)
    ∧ db.unmappingTable j = some (identifier', id)
    ∧ (∀ name, identifier ≠ .symbol (.interned name))
    ∧ (∀ name, identifier' ≠ .symbol (.interned name))
    ∧ identifierToSymbol identifier ≠ identifierToSymbol identifier'
    ∧ (identifierToSymbol identifier).name = (identifierToSymbol identifier').name
    ∧ rank db e identifier id = rank db e identifier' id

/-- Two identifiers end up with the same name. -/
def Clash (db : RenameDatabase) (e : Expr T) (i j : Symbol) : Prop :=
  (Kept db e i ∧ Kept db e j ∧ unmapIdentifier db i = unmapIdentifier db j)
    ∨ (¬ Kept db e i ∧ ¬ Kept db e j ∧ SameGenerated db e i j)

/-- **No clash in scope**: no bound identifier clashes with one that is bound beside it or is
free in the scope. -/
def NoClash (db : RenameDatabase) (e : Expr T) : Prop :=
  ∀ binder ∈ binders e, ∀ b ∈ binder.1, ∀ i, (i ∈ references binder.2 ∨ i ∈ binder.1) →
    i ≠ b → ¬ Clash db e i b

end MitScheme.SyntaxOutput
