import Mathlib.Data.List.Dedup

/-!
# The renaming behind the syntaxer

`syntax-output.scm`. While it works, the syntaxer gives every local variable a name of
its own, an uninterned symbol, and records in the rename database which identifier and
which frame the symbol stands for. `output/post-process-expression` turns these names
into readable ones: a variable gets the name it had in the source (it is *unmapped*)
unless that would capture, and otherwise a generated one, `.name.N` or `.name.N-I`.

`compute-substitution` walks the expression once, computing the free references of
every part and filling a table with the identifiers that can be unmapped;
`alpha-substitute` then walks it again and replaces every identifier.
-/

namespace MitScheme.SyntaxOutput

/-! ## Identifiers -/

/-- A symbol. Uninterned symbols are told apart by identity, whatever they are called. -/
inductive Symbol where
  | interned (name : String)
  | uninterned (name : String) (serial : Nat)
deriving DecidableEq, Repr

/-- `symbol->string` -/
def Symbol.name : Symbol → String
  | .interned name => name
  | .uninterned name _ => name

/-- An identifier: a symbol, or a syntactic closure of one. -/
inductive Identifier where
  | symbol (s : Symbol)
  | closure (serial : Nat) (form : Identifier)
deriving DecidableEq, Repr

/-- `identifier->symbol` -/
def identifierToSymbol : Identifier → Symbol
  | .symbol s => s
  | .closure _ form => identifierToSymbol form

/-- A rename id: a promise of a frame number, by its identity. -/
abbrev RenameId := Nat

/-- The rename database. A symbol made by `rename-identifier` is entered in
`unmappingTable`, which no two symbols enter for the same identifier and rename id. -/
structure RenameDatabase where
  /-- `frame-number`: the last one that was given out. -/
  frameNumber : Nat
  unmappingTable : Symbol → Option (Identifier × RenameId)
  /-- The generated symbols, by symbol and frame number. -/
  idTable : Symbol → List (Nat × List (Identifier × Symbol))
  /-- The rename ids that have been forced. -/
  frames : RenameId → Option Nat
  unmapping_injective : ∀ {s t : Symbol} {entry : Identifier × RenameId},
    unmappingTable s = some entry → unmappingTable t = some entry → s = t
  frames_le : ∀ {id : RenameId} {n : Nat}, frames id = some n → n ≤ frameNumber
  frames_injective : ∀ {id id' : RenameId} {n : Nat},
    frames id = some n → frames id' = some n → id = id'

def unmapIdentifier (db : RenameDatabase) (identifier : Symbol) : Symbol :=
  match db.unmappingTable identifier with
  | some (identifier, _) => identifierToSymbol identifier
  | none => identifier

/-- `(force id)`, for an id made by `make-rename-id`. -/
def forceRenameId (id : RenameId) (db : RenameDatabase) : Nat × RenameDatabase :=
  match h : db.frames id with
  | some n => (n, db)
  | none =>
      (db.frameNumber + 1,
        { db with
          frameNumber := db.frameNumber + 1
          frames := fun id' => if id' = id then some (db.frameNumber + 1) else db.frames id'
          frames_le := by
            intro id' n hn
            split at hn
            · cases hn
              exact Nat.le_refl _
            · exact Nat.le_succ_of_le (db.frames_le hn)
          frames_injective := by
            intro id' id'' n hn hn'
            split at hn
            · cases hn
              split at hn'
              · rename_i h1 h2
                rw [h1, h2]
              · exact absurd (db.frames_le hn') (by omega)
            · split at hn'
              · cases hn'
                exact absurd (db.frames_le hn) (by omega)
              · exact db.frames_injective hn hn' })

def mapInternedSymbol (name : String) (frameNumber : Nat) : Symbol :=
  .interned ("." ++ name ++ "." ++ toString frameNumber)

def mapIndexedSymbol (symbol : Symbol) (frameNumber indexNumber : Nat) : Symbol :=
  .interned ("." ++ symbol.name ++ "." ++ toString frameNumber ++ "-" ++ toString indexNumber)

/-- `(set-cdr! entry ...)`, for the entry of a frame number in an alist. -/
def setEntry (frameNumber : Nat) (entry : List (Identifier × Symbol)) :
    List (Nat × List (Identifier × Symbol)) → List (Nat × List (Identifier × Symbol))
  | [] => []
  | (n, e) :: alist =>
      if n = frameNumber then (n, entry) :: alist else (n, e) :: setEntry frameNumber entry alist

/-- The database after `symbol` was given a new alist. -/
def RenameDatabase.putIds (db : RenameDatabase) (symbol : Symbol)
    (alist : List (Nat × List (Identifier × Symbol))) : RenameDatabase :=
  { db with idTable := fun s => if s = symbol then alist else db.idTable s }

def mapUninternedIdentifier (identifier : Identifier) (frameNumber : Nat) (db : RenameDatabase) :
    Symbol × RenameDatabase :=
  let symbol := identifierToSymbol identifier
  let alist := db.idTable symbol
  match alist.lookup frameNumber with
  | some entry =>
      match entry.lookup identifier with
      | some mappedSymbol => (mappedSymbol, db)
      | none =>
          let mappedSymbol := mapIndexedSymbol symbol frameNumber entry.length
          (mappedSymbol,
            db.putIds symbol (setEntry frameNumber ((identifier, mappedSymbol) :: entry) alist))
  | none =>
      let mappedSymbol := mapIndexedSymbol symbol frameNumber 0
      (mappedSymbol, db.putIds symbol ((frameNumber, [(identifier, mappedSymbol)]) :: alist))

def finalizeMappedIdentifier (identifier : Symbol) (db : RenameDatabase) :
    Symbol × RenameDatabase :=
  match db.unmappingTable identifier with
  | some (identifier, id) =>
      let (frameNumber, db) := forceRenameId id db
      match identifier with
      | .symbol (.interned name) => (mapInternedSymbol name frameNumber, db)
      | identifier => mapUninternedIdentifier identifier frameNumber db
  | none => (identifier, db)

/-- The nodes that only have subexpressions, with what else they carry. -/
inductive Node (T : Type) where
  | access (name : Symbol)
  | combination
  | comment (text : T)
  | conditional
  | definition (name : Symbol)
  | delay
  | disjunction
  | sequence
deriving DecidableEq, Repr

/-- A declaration, and the identifiers `map-declaration-identifiers` finds in it. -/
structure Declaration (T : Type) where
  text : T
  identifiers : List Symbol
deriving DecidableEq, Repr

/-- The output of the syntaxer. Constants, quotations and `(the-environment)` are left alone
by both walks. `pattern` is the shape of a lambda list, and the name of the lambda. -/
inductive Expr (T : Type) where
  | variable (name : Symbol)
  | assignment (name : Symbol) (value : Expr T)
  | unassignedP (name : Symbol)
  | lambda (pattern : T) (bound : List Symbol) (body : Expr T)
  | openBlock (bound : List Symbol) (declarations : List (Declaration T)) (body : Expr T)
  | declaration (text : List (Declaration T)) (expression : Expr T)
  | node (kind : Node T) (subexpressions : List (Expr T))
  | constant (c : T)

variable {T : Type}

/-- A reference set: identifiers, each with the symbol it unmaps to. -/
abbrev ReferenceSet := List (Symbol × Symbol)

def singletonReferenceSet (db : RenameDatabase) (identifier : Symbol) : ReferenceSet :=
  [(identifier, unmapIdentifier db identifier)]

def referenceSetUnion : ReferenceSet → ReferenceSet → ReferenceSet
  | [], s2 => s2
  | item :: s1, s2 =>
      if (s2.lookup item.1).isSome then referenceSetUnion s1 s2
      else item :: referenceSetUnion s1 s2

def addToReferenceSet (db : RenameDatabase) (identifier : Symbol) (referenceSet : ReferenceSet) :
    ReferenceSet :=
  if (referenceSet.lookup identifier).isSome then referenceSet
  else (identifier, unmapIdentifier db identifier) :: referenceSet

def removeFromReferenceSet (identifiers : List Symbol) (referenceSet : ReferenceSet) :
    ReferenceSet :=
  referenceSet.filter fun item => item.1 ∉ identifiers

/-- `unmapping-collision?` -/
def unmappingCollisionP (identifier unmappedIdentifier : Symbol) (referenceSet : ReferenceSet) :
    Bool :=
  referenceSet.any fun item => unmappedIdentifier = item.2 ∧ identifier ≠ item.1

/-- The table `compute-substitution` fills. -/
abbrev Unmapping := Symbol → Option Symbol

def storeUnmappingEntry (identifier unmappedIdentifier : Symbol) (unmapping : Unmapping) :
    Unmapping :=
  fun i => if i = identifier then some unmappedIdentifier else unmapping i

/-- The loop of `compute-substitution/binder` over the bound identifiers. -/
def unmapBound (db : RenameDatabase) (freeReferences : ReferenceSet) :
    List Symbol → Unmapping → Unmapping
  | [], unmapping => unmapping
  | identifier :: identifiers, unmapping =>
      let unmapped := unmapIdentifier db identifier
      unmapBound db freeReferences identifiers
        (if unmappingCollisionP identifier unmapped freeReferences
            ∨ unmapped ∈ identifiers.map (unmapIdentifier db)
          then unmapping
          else storeUnmappingEntry identifier unmapped unmapping)

/-- `compute-substitution/binder`, once the references and the table of the body are known. -/
def computeSubstitutionBinder (db : RenameDatabase) (bound : List Symbol)
    (body : ReferenceSet × Unmapping) : ReferenceSet × Unmapping :=
  let freeReferences := removeFromReferenceSet bound body.1
  (freeReferences, unmapBound db freeReferences bound body.2)

mutual

/-- `compute-substitution`. A declaration is a comment to the walker, which has no handler of
its own for it. -/
def computeSubstitution (db : RenameDatabase) : Expr T → Unmapping → ReferenceSet × Unmapping
  | .variable name, unmapping => (singletonReferenceSet db name, unmapping)
  | .assignment name value, unmapping =>
      let (references, unmapping) := computeSubstitution db value unmapping
      (addToReferenceSet db name references, unmapping)
  | .unassignedP name, unmapping => (singletonReferenceSet db name, unmapping)
  | .lambda _ bound body, unmapping =>
      computeSubstitutionBinder db bound (computeSubstitution db body unmapping)
  | .openBlock bound _ body, unmapping =>
      computeSubstitutionBinder db bound (computeSubstitution db body unmapping)
  | .declaration _ expression, unmapping => computeSubstitution db expression unmapping
  | .node _ subexpressions, unmapping => computeSubstitutions db subexpressions unmapping
  | .constant _, unmapping => ([], unmapping)

/-- `compute-substitution/subexpressions`, operands being evaluated from right to left. -/
def computeSubstitutions (db : RenameDatabase) :
    List (Expr T) → Unmapping → ReferenceSet × Unmapping
  | [], unmapping => ([], unmapping)
  | expression :: expressions, unmapping =>
      let (references', unmapping) := computeSubstitutions db expressions unmapping
      let (references, unmapping) := computeSubstitution db expression unmapping
      (referenceSetUnion references references', unmapping)

end

/-! ## Substituting -/

/-- `unmapping->substitution` -/
def unmappingToSubstitution (unmapping : Unmapping) (identifier : Symbol) (db : RenameDatabase) :
    Symbol × RenameDatabase :=
  match unmapping identifier with
  | some unmapped => (unmapped, db)
  | none => finalizeMappedIdentifier identifier db

/-- `(map substitution identifiers)` -/
def substituteAll (unmapping : Unmapping) :
    List Symbol → RenameDatabase → List Symbol × RenameDatabase
  | [], db => ([], db)
  | identifier :: identifiers, db =>
      let (symbol, db) := unmappingToSubstitution unmapping identifier db
      let (symbols, db) := substituteAll unmapping identifiers db
      (symbol :: symbols, db)

def substituteInDeclarations (unmapping : Unmapping) :
    List (Declaration T) → RenameDatabase → List (Declaration T) × RenameDatabase
  | [], db => ([], db)
  | declaration :: declarations, db =>
      let (identifiers, db) := substituteAll unmapping declaration.identifiers db
      let (declarations, db) := substituteInDeclarations unmapping declarations db
      ({ declaration with identifiers := identifiers } :: declarations, db)

mutual

/-- `alpha-substitute`, operands being evaluated from right to left. -/
def alphaSubstitute (unmapping : Unmapping) : Expr T → RenameDatabase → Expr T × RenameDatabase
  | .variable name, db =>
      let (name, db) := unmappingToSubstitution unmapping name db
      (.variable name, db)
  | .assignment name value, db =>
      let (value, db) := alphaSubstitute unmapping value db
      let (name, db) := unmappingToSubstitution unmapping name db
      (.assignment name value, db)
  | .unassignedP name, db =>
      let (name, db) := unmappingToSubstitution unmapping name db
      (.unassignedP name, db)
  | .lambda pattern bound body, db =>
      let (body, db) := alphaSubstitute unmapping body db
      let (bound, db) := substituteAll unmapping bound db
      (.lambda pattern bound body, db)
  | .openBlock bound declarations body, db =>
      let (body, db) := alphaSubstitute unmapping body db
      let (declarations, db) := substituteInDeclarations unmapping declarations db
      let (bound, db) := substituteAll unmapping bound db
      (.openBlock bound declarations body, db)
  | .declaration text expression, db =>
      let (expression, db) := alphaSubstitute unmapping expression db
      let (text, db) := substituteInDeclarations unmapping text db
      (.declaration text expression, db)
  | .node kind subexpressions, db =>
      let (subexpressions, db) := alphaSubstitutes unmapping subexpressions db
      (.node kind subexpressions, db)
  | .constant c, db => (.constant c, db)

/-- `alpha-substitute` on the subexpressions of a node, with `map`. -/
def alphaSubstitutes (unmapping : Unmapping) :
    List (Expr T) → RenameDatabase → List (Expr T) × RenameDatabase
  | [], db => ([], db)
  | expression :: expressions, db =>
      let (expression, db) := alphaSubstitute unmapping expression db
      let (expressions, db) := alphaSubstitutes unmapping expressions db
      (expression :: expressions, db)

end

/-- `output/post-process-expression` -/
def postProcessExpression (db : RenameDatabase) (expression : Expr T) : Expr T :=
  let (_, unmapping) := computeSubstitution db expression fun _ => none
  (alphaSubstitute unmapping expression db).1

end MitScheme.SyntaxOutput
