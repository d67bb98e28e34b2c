import Mathlib.Data.List.Basic

/-!
# Variable lookup and variable caches

`lookup.c`. The value of a variable is in a cell: an argument slot of a procedure frame, a
binding of the frame's extension, or the value cell of a symbol. When compiled code refers
to a variable, the cell is given a cache: a reference trap in the cell points to it, the
cache holds the value, and the compiled code refers to the cache directly. The cache
records who refers to it, by kind and by name, since a new binding may shadow the variable
for some of the references, which then have to be moved to another cache.

Traps and caches are allocated on a heap and told apart by their addresses. Allocation
succeeds: an operation that finds too little space is interrupted before it has changed
anything but the size of an extension, and is tried again. Whether the symbol table holds
a symbol strongly is left out, and so is the size of an extension.
-/

namespace MitScheme.Lookup

open Function (update)

abbrev Symbol := String

/-- A chain of frames, innermost first. It ends in the global environment, or in something
that binds nothing. The parameters are those of the lambda whose application made the frame. -/
inductive Environment where
  | global
  | null
  | procedureFrame (serial : Nat) (parameters : List Symbol) (nodup : parameters.Nodup)
      (parent : Environment)
deriving DecidableEq

def procedureFrameP : Environment → Bool
  | .procedureFrame _ _ _ _ => true
  | _ => false

/-- The place of a variable's value. -/
inductive Cell where
  /-- `SYMBOL_GLOBAL_VALUE_CELL` -/
  | global (symbol : Symbol)
  /-- `GET_FRAME_ARG_CELL` -/
  | argument (frame : Environment) (index : Nat)
  /-- The cdr of a binding in the extension of a frame. -/
  | extension (frame : Environment) (symbol : Symbol)
deriving DecidableEq

/-- What a cell or a cache can hold. -/
inductive Object (V : Type) where
  | datum (v : V)
  /-- `EXTERNAL_UNASSIGNED_OBJECT` -/
  | externalUnassigned
  | unassigned
  | unbound
  | macroBinding (transformer : V)
  /-- A reference trap that points to a cache, by its address. -/
  | compilerCached (trap : Nat)
deriving DecidableEq, Repr

/-- `UNBOUND_OBJECT` -/
def unboundP {V : Type} : Object V → Bool
  | .unbound => true
  | _ => false

/-! ## Compiled code -/

/-- A compiled-code block. -/
structure Block where
  serial : Nat
  /-- `cc_block_environment` -/
  environment : Environment
  isEnvironment : environment ≠ .null
deriving DecidableEq

/-- A place in a block where a cache is installed, held weakly: the garbage collector replaces
the block when nothing else refers to it. -/
structure Reference where
  block : Option Block
  offset : Nat
deriving DecidableEq

/-- The references of one kind, by the name under which they refer to the variable. -/
abbrev ReferenceList := List (Symbol × List Reference)

/-- `CACHE_REFERENCES_LOOKUP`, `CACHE_REFERENCES_ASSIGNMENT`, `CACHE_REFERENCES_OPERATOR` -/
inductive Kind where
  | lookup
  | assignment
  | operator
deriving DecidableEq, Repr

/-- A cache. -/
structure Cache (V : Type) where
  value : Object V
  clone : Option Nat
  references : Kind → ReferenceList

/-- What is installed in a block. A clone is a cache whose value is always expensive to assign,
and that leads to the real one. A link is what `make_uuo_link` makes of a value and a cache. -/
inductive Slot (V : Type) where
  | empty
  | cache (cache : Nat)
  | clone (clone : Nat)
  | link (value : Object V) (cache : Nat)

/-- The environment structure, the caches and the compiled code. -/
structure State (V : Type) where
  cells : Cell → Object V
  /-- The symbols bound in the extension of a frame. -/
  extensions : Environment → List Symbol
  /-- `GET_TRAP_CACHE` -/
  traps : Nat → Nat
  caches : Nat → Cache V
  /-- `GET_CACHE_CLONE` of a clone. -/
  clones : Nat → Nat
  slots : Block → Nat → Slot V
  /-- The next address that is free. -/
  free : Nat

/-- The codes the operations return. -/
inductive ReturnCode where
  | primDone
  | errBadFrame
  | errUnboundVariable
  | errUnassignedVariable
  | errMacroBinding
  | errIllegalReferenceTrap
deriving DecidableEq, Repr

/-- What an operation returns, and the state it leaves. -/
structure Outcome (V α : Type) where
  code : ReturnCode
  /-- `*value_ret` -/
  value : Option α
  state : State V

variable {V : Type}

namespace State

def setCell (σ : State V) (cell : Cell) (object : Object V) : State V :=
  { σ with cells := update σ.cells cell object }

def setCache (σ : State V) (cache : Nat) (contents : Cache V) : State V :=
  { σ with caches := update σ.caches cache contents }

def setCacheValue (σ : State V) (cache : Nat) (value : Object V) : State V :=
  σ.setCache cache { σ.caches cache with value := value }

def setCacheClone (σ : State V) (cache : Nat) (clone : Option Nat) : State V :=
  σ.setCache cache { σ.caches cache with clone := clone }

/-- `GET_CACHE_REFERENCES` -/
def references (σ : State V) (cache : Nat) (kind : Kind) : ReferenceList :=
  (σ.caches cache).references kind

def setReferences (σ : State V) (cache : Nat) (kind : Kind) (list : ReferenceList) : State V :=
  σ.setCache cache
    { σ.caches cache with references := update (σ.caches cache).references kind list }

/-- `write_variable_cache`, `make_uuo_link` -/
def writeSlot (σ : State V) (block : Block) (offset : Nat) (slot : Slot V) : State V :=
  { σ with slots := update σ.slots block (update (σ.slots block) offset slot) }

end State

def scanProcedureBindings (σ : State V) (frame : Environment) (symbol : Symbol)
    (findUnboundP : Bool) : List Symbol → Nat → Option Cell
  | [], _ => none
  | parameter :: parameters, index =>
      if parameter = symbol
          ∧ (findUnboundP = true ∨ unboundP (σ.cells (.argument frame index)) = false) then
        some (.argument frame index)
      else scanProcedureBindings σ frame symbol findUnboundP parameters (index + 1)

def scanFrame (σ : State V) : Environment → Symbol → Bool → Option Cell
  | .procedureFrame n parameters nodup parent, symbol, findUnboundP =>
      let frame := .procedureFrame n parameters nodup parent
      if symbol ∈ σ.extensions frame then some (.extension frame symbol)
      else scanProcedureBindings σ frame symbol findUnboundP parameters 0
  | .global, symbol, _ => some (.global symbol)
  | .null, _, _ => none

/-- `find_binding_cell`, with the frame it returns. -/
def findBindingCell (σ : State V) : Environment → Symbol → Option Cell × Environment
  | .procedureFrame n parameters nodup parent, symbol =>
      let frame := .procedureFrame n parameters nodup parent
      match scanFrame σ frame symbol false with
      | some cell => (some cell, frame)
      | none => findBindingCell σ parent symbol
  | .global, symbol => (scanFrame σ .global symbol false, .global)
  | .null, symbol => (scanFrame σ .null symbol false, .null)

def lookupVariableCache (σ : State V) (cache : Nat) : ReturnCode × Option (Object V) :=
  match (σ.caches cache).value with
  | .datum v => (.primDone, some (.datum v))
  | .externalUnassigned => (.primDone, some .externalUnassigned)
  | .unassigned => (.errUnassignedVariable, none)
  | .unbound => (.errUnboundVariable, none)
  | .macroBinding m => (.errMacroBinding, some (.macroBinding m))
  | .compilerCached _ => (.errIllegalReferenceTrap, none)

def lookupVariable (σ : State V) (environment : Environment) (symbol : Symbol) :
    ReturnCode × Option (Object V) :=
  if environment = .null then (.errBadFrame, none)
  else
    match (findBindingCell σ environment symbol).1 with
    | none => (.errUnboundVariable, none)
    | some cell =>
        match σ.cells cell with
        | .datum v => (.primDone, some (.datum v))
        | .externalUnassigned => (.primDone, some .externalUnassigned)
        | .unassigned => (.errUnassignedVariable, none)
        | .unbound => (.errUnboundVariable, none)
        | .macroBinding m => (.errMacroBinding, some (.macroBinding m))
        | .compilerCached trap => lookupVariableCache σ (σ.traps trap)

def findReferencesNamed (symbol : Symbol) (list : ReferenceList) : Option (List Reference) :=
  list.lookup symbol

/-- The list with the references that `find_references_named` finds replaced. -/
def replaceNamed (symbol : Symbol) (references : List Reference) : ReferenceList → ReferenceList
  | [] => []
  | entry :: list =>
      if entry.1 = symbol then (symbol, references) :: list
      else entry :: replaceNamed symbol references list

/-- The list after `WALK_REFERENCES`, which takes out the references whose block is gone, and
the names that have no references. -/
def walkedReferences (list : ReferenceList) : ReferenceList :=
  (list.map fun entry => (entry.1, entry.2.filter fun r => r.block.isSome)).filter
    fun entry => !entry.2.isEmpty

/-- The places `WALK_REFERENCES` visits. -/
def visitedReferences (list : ReferenceList) : List (Block × Nat) :=
  list.flatMap fun entry => entry.2.filterMap fun r => r.block.map fun block => (block, r.offset)

/-- `add_reference`: a reference whose block is gone is used again. -/
def addToReferences (block : Block) (offset : Nat) : List Reference → List Reference
  | [] => [⟨some block, offset⟩]
  | r :: references =>
      if r.block = none then ⟨some block, offset⟩ :: references
      else r :: addToReferences block offset references

def addReference (symbol : Symbol) (block : Block) (offset : Nat) (list : ReferenceList) :
    ReferenceList :=
  match findReferencesNamed symbol list with
  | some references => replaceNamed symbol (addToReferences block offset references) list
  | none => (symbol, [⟨some block, offset⟩]) :: list

/-- What `install_cache` installs for a reference of a kind. -/
def slotFor (σ : State V) (cache : Nat) : Kind → Slot V
  | .lookup => .cache cache
  | .assignment =>
      match (σ.caches cache).clone with
      | some clone => .clone clone
      | none => .cache cache
  | .operator => .link (σ.caches cache).value cache

/-- `install_cache`, at several places. -/
def installCache (σ : State V) (cache : Nat) (kind : Kind) (places : List (Block × Nat)) :
    State V :=
  places.foldl (fun τ place => τ.writeSlot place.1 place.2 (slotFor σ cache kind)) σ

/-- `install_cache`, at the places `WALK_REFERENCES` visits. -/
def reinstallCache (σ : State V) (cache : Nat) (kind : Kind) : State V :=
  installCache (σ.setReferences cache kind (walkedReferences (σ.references cache kind))) cache kind
    (visitedReferences (σ.references cache kind))

/-- `update_clone`, with `update_assignment_references` -/
def updateClone (σ : State V) (cache : Nat) : State V :=
  if σ.references cache .assignment ≠ [] ∧ σ.references cache .operator ≠ [] then
    match (σ.caches cache).clone with
    | some _ => σ
    | none =>
        let clone := σ.free
        let σ := { σ with clones := update σ.clones clone cache, free := clone + 1 }
        reinstallCache (σ.setCacheClone cache (some clone)) cache .assignment
  else
    match (σ.caches cache).clone with
    | some _ => reinstallCache (σ.setCacheClone cache none) cache .assignment
    | none => σ

/-- `guarantee_cache`, and the cache of the cell. -/
def guaranteeCache (σ : State V) (cell : Cell) : State V × Nat :=
  match σ.cells cell with
  | .compilerCached trap => (σ, σ.traps trap)
  | value =>
      let cache := σ.free
      let trap := σ.free + 1
      let σ := σ.setCache cache { value := value, clone := none, references := fun _ => [] }
      let σ := { σ with traps := update σ.traps trap cache, free := trap + 1 }
      (σ.setCell cell (.compilerCached trap), cache)

def mapToUnassigned : Object V → Object V
  | .externalUnassigned => .unassigned
  | value => value

def mapFromUnassigned : Object V → Object V
  | .unassigned => .externalUnassigned
  | value => value

def updateUuoLinks (σ : State V) (cache : Nat) (newValue : Object V) : State V :=
  reinstallCache (updateClone (σ.setCacheValue cache newValue) cache) cache .operator

/-- Whether the old value lets an assignment go ahead. -/
def assignable (forceP : Bool) : Object V → ReturnCode
  | .datum _ => .primDone
  | .externalUnassigned => .primDone
  | .unassigned => .primDone
  | .unbound => if forceP then .primDone else .errUnboundVariable
  | .macroBinding _ => if forceP then .primDone else .errMacroBinding
  | .compilerCached _ => .errIllegalReferenceTrap

def assignVariableCache (σ : State V) (cache : Nat) (value : Object V) (forceP : Bool) :
    Outcome V (Object V) :=
  let oldValue := (σ.caches cache).value
  match assignable forceP oldValue with
  | .primDone =>
      let σ :=
        if σ.references cache .operator ≠ [] then updateUuoLinks σ cache (mapToUnassigned value)
        else σ.setCacheValue cache (mapToUnassigned value)
      ⟨.primDone, some (mapFromUnassigned oldValue), σ⟩
  | code => ⟨code, none, σ⟩

def assignVariableEnd (σ : State V) (cell : Cell) (value : Object V) (forceP : Bool) :
    Outcome V (Object V) :=
  match σ.cells cell with
  | .compilerCached trap => assignVariableCache σ (σ.traps trap) value forceP
  | oldValue =>
      match assignable forceP oldValue with
      | .primDone =>
          ⟨.primDone, some (mapFromUnassigned oldValue), σ.setCell cell (mapToUnassigned value)⟩
      | code => ⟨code, none, σ⟩

def assignVariable (σ : State V) (environment : Environment) (symbol : Symbol)
    (value : Object V) : Outcome V (Object V) :=
  match (findBindingCell σ environment symbol).1 with
  | none => ⟨.errUnboundVariable, none, σ⟩
  | some cell => assignVariableEnd σ cell value false

/-! ## Moving references -/

def moveRefPairP (ancestor : Environment) : Environment → Bool
  | .procedureFrame n parameters nodup parent =>
      let descendant := .procedureFrame n parameters nodup parent
      if descendant = ancestor then true else moveRefPairP ancestor parent
  | descendant => descendant = ancestor

/-- The loop of `move_ref_pairs`: the references that stay, and those that are moved, in the
order of the list. -/
def splitRefPairs (ancestor : Environment) : List Reference → List Reference × List (Block × Nat)
  | [] => ([], [])
  | r :: references =>
      let (stay, move) := splitRefPairs ancestor references
      match r.block with
      | none => (stay, move)
      | some block =>
          if moveRefPairP ancestor block.environment then (stay, (block, r.offset) :: move)
          else (r :: stay, move)

/-- The loop of `move_ref_pairs` when the references are moved to the very list they are taken
from. A reference is put in at the front. If it was there in the first place, the loop finds
it again, and never ends. -/
def moveRefPairsWithin (ancestor : Environment) (front : List Reference) :
    List Reference → Option (List Reference)
  | [] => some front
  | r :: references =>
      match r.block with
      | none => moveRefPairsWithin ancestor front references
      | some block =>
          if moveRefPairP ancestor block.environment then
            if front = [] then none else moveRefPairsWithin ancestor (r :: front) references
          else moveRefPairsWithin ancestor (front ++ [r]) references

/-- The list after references were moved to it: they are added in front of the others of their
name, one after the other. -/
def receiveRefPairs (symbol : Symbol) (moved : List (Block × Nat)) (list : ReferenceList) :
    ReferenceList :=
  let moved' := (moved.map fun place => (⟨some place.1, place.2⟩ : Reference)).reverse
  match findReferencesNamed symbol list with
  | some references => replaceNamed symbol (moved' ++ references) list
  | none => if moved = [] then list else (symbol, moved') :: list

def moveRefPairs (σ : State V) (fromCache toCache : Nat) (kind : Kind) (ancestor : Environment)
    (symbol : Symbol) : Option (State V) :=
  match findReferencesNamed symbol (σ.references fromCache kind) with
  | none => some σ
  | some references =>
      let (stay, move) := splitRefPairs ancestor references
      if fromCache = toCache then
        (moveRefPairsWithin ancestor [] references).map fun references =>
          installCache (σ.setReferences fromCache kind
            (replaceNamed symbol references (σ.references fromCache kind))) toCache kind move
      else
        let σ := σ.setReferences fromCache kind
          (replaceNamed symbol stay (σ.references fromCache kind))
        let σ := σ.setReferences toCache kind
          (receiveRefPairs symbol move (σ.references toCache kind))
        some (installCache σ toCache kind move)

def deleteRefPairs (σ : State V) (fromCache : Nat) (kind : Kind) (ancestor : Environment)
    (symbol : Symbol) : State V :=
  match findReferencesNamed symbol (σ.references fromCache kind) with
  | none => σ
  | some references =>
      σ.setReferences fromCache kind
        (replaceNamed symbol (splitRefPairs ancestor references).1 (σ.references fromCache kind))

def updateCacheReferences (σ : State V) (fromCache : Nat) (toCell : Option Cell)
    (environment : Environment) (symbol : Symbol) : Option (State V) :=
  match toCell with
  | some cell => do
      let (σ, toCache) := guaranteeCache σ cell
      let σ ← moveRefPairs σ fromCache toCache .lookup environment symbol
      let σ ← moveRefPairs σ fromCache toCache .assignment environment symbol
      let σ ← moveRefPairs σ fromCache toCache .operator environment symbol
      return updateClone (updateClone σ toCache) fromCache
  | none =>
      let σ := deleteRefPairs σ fromCache .lookup environment symbol
      let σ := deleteRefPairs σ fromCache .assignment environment symbol
      let σ := deleteRefPairs σ fromCache .operator environment symbol
      some (updateClone σ fromCache)

/-- The cache of a cell, if there is one. -/
def cellCache (σ : State V) (cell : Cell) : Option Nat :=
  match σ.cells cell with
  | .compilerCached trap => some (σ.traps trap)
  | _ => none

/-- `define_variable`. The result is `none` if the call does not return. -/
def defineVariable (σ : State V) (environment : Environment) (symbol : Symbol)
    (value : Object V) : Option (Outcome V Unit) :=
  match scanFrame σ environment symbol true with
  | some cell =>
      let outcome := assignVariableEnd σ cell value true
      some ⟨outcome.code, none, outcome.state⟩
  | none =>
      match environment with
      | .procedureFrame n parameters nodup parent =>
          let environment := .procedureFrame n parameters nodup parent
          let shadowedCell := (findBindingCell σ parent symbol).1
          let oldCache := shadowedCell.bind (cellCache σ)
          let cell := .extension environment symbol
          let σ := { σ with
            extensions :=
              update σ.extensions environment (σ.extensions environment ++ [symbol]) }
          let σ := σ.setCell cell (mapToUnassigned value)
          match oldCache with
          | some oldCache =>
              (updateCacheReferences σ oldCache (some cell) environment symbol).map fun σ =>
                ⟨.primDone, none, σ⟩
          | none => some ⟨.primDone, none, σ⟩
      | _ => some ⟨.errBadFrame, none, σ⟩

def moveAllReferences (σ : State V) (fromCache toCache : Nat) (kind : Kind) : State V :=
  let list := σ.references fromCache kind
  let σ := installCache σ toCache kind (visitedReferences list)
  let σ := σ.setReferences toCache kind (σ.references toCache kind ++ walkedReferences list)
  σ.setReferences fromCache kind []

/-- `link_variables`. The result is `none` if the call does not return. -/
def linkVariables (σ : State V) (targetEnvironment : Environment) (targetSymbol : Symbol)
    (sourceEnvironment : Environment) (sourceSymbol : Symbol) : Option (Outcome V Unit) :=
  if targetEnvironment = .null ∨ sourceEnvironment = .null then some ⟨.errBadFrame, none, σ⟩
  else
    match (findBindingCell σ sourceEnvironment sourceSymbol).1 with
    | none => some ⟨.errUnboundVariable, none, σ⟩
    | some sourceCell =>
        if unboundP (σ.cells sourceCell) then some ⟨.errUnboundVariable, none, σ⟩
        else
          let targetCell := scanFrame σ targetEnvironment targetSymbol true
          if targetCell = some sourceCell then some ⟨.primDone, none, σ⟩
          else
            match targetCell.map σ.cells with
            | some (.compilerCached targetTrap) =>
                let targetCache := σ.traps targetTrap
                match σ.cells sourceCell with
                | .compilerCached sourceTrap =>
                    let sourceCache := σ.traps sourceTrap
                    if sourceCache = targetCache then some ⟨.primDone, none, σ⟩
                    else
                      let σ := σ.setCacheValue targetCache (σ.caches sourceCache).value
                      let σ := moveAllReferences σ sourceCache targetCache .lookup
                      let σ := moveAllReferences σ sourceCache targetCache .assignment
                      let σ := moveAllReferences σ sourceCache targetCache .operator
                      let σ := updateClone (updateClone σ sourceCache) targetCache
                      let σ := { σ with traps := update σ.traps sourceTrap targetCache }
                      some ⟨.primDone, none, σ.setCell sourceCell (.compilerCached targetTrap)⟩
                | value =>
                    let σ := σ.setCacheValue targetCache value
                    some ⟨.primDone, none, σ.setCell sourceCell (.compilerCached targetTrap)⟩
            | _ =>
                let σ := (guaranteeCache σ sourceCell).1
                defineVariable σ targetEnvironment targetSymbol (σ.cells sourceCell)

/-- The bindings of an extension without that of `symbol`, whose place the last one takes. -/
def dropBinding (symbol : Symbol) (bindings : List Symbol) : List Symbol :=
  match bindings.getLast? with
  | none => []
  | some last => (bindings.set (bindings.idxOf symbol) last).dropLast

/-- `unbind_variable_1`. A binding of an extension is dropped, with what it holds. -/
def unbindVariable1 (σ : State V) (cell : Cell) (frame : Environment) (symbol : Symbol) :
    State V :=
  if procedureFrameP frame = true ∧ symbol ∈ σ.extensions frame then
    { σ with
      extensions :=
        update σ.extensions frame (dropBinding symbol (σ.extensions frame))
      cells := update σ.cells (.extension frame symbol) .unbound }
  else σ.setCell cell .unbound

/-- `unbind_variable`, with `unbind_cached_variable`. The result is `none` if the call does not
return. -/
def unbindVariable (σ : State V) (environment : Environment) (symbol : Symbol) :
    Option (Outcome V Bool) :=
  let (cell, frame) := findBindingCell σ environment symbol
  match cell with
  | none => some ⟨.primDone, some false, σ⟩
  | some cell =>
      match σ.cells cell with
      | .unbound => some ⟨.primDone, some false, σ⟩
      | .compilerCached trap =>
          let cache := σ.traps trap
          match (σ.caches cache).value with
          | .unbound => some ⟨.primDone, some false, σ⟩
          | .compilerCached _ => some ⟨.errIllegalReferenceTrap, none, σ⟩
          | _ =>
              match frame with
              | .procedureFrame n parameters nodup parent =>
                  let frame := .procedureFrame n parameters nodup parent
                  let shadowedCell := (findBindingCell σ parent symbol).1
                  let σ := unbindVariable1 σ cell frame symbol
                  (updateCacheReferences σ cache shadowedCell frame symbol).map fun σ =>
                    ⟨.primDone, some true, σ⟩
              | _ => some ⟨.primDone, some true, σ.setCacheValue cache .unbound⟩
      | _ => some ⟨.primDone, some true, unbindVariable1 σ cell frame symbol⟩

def addCacheReference (σ : State V) (environment : Environment) (symbol : Symbol)
    (block : Block) (offset : Nat) (kind : Kind) : Outcome V Unit :=
  let (σ, cache) :=
    match (findBindingCell σ environment symbol).1 with
    | some cell => guaranteeCache σ cell
    | none =>
        -- the cache is attached to no environment structure
        let cache := σ.free
        let σ := σ.setCache cache { value := .unbound, clone := none, references := fun _ => [] }
        ({ σ with free := cache + 2 }, cache)
  let σ := σ.setReferences cache kind
    (addReference symbol block offset (σ.references cache kind))
  let σ := updateClone σ cache
  ⟨.primDone, none, installCache σ cache kind [(block, offset)]⟩

/-- The cache that compiled code reaches through a slot. -/
def slotCache (σ : State V) (block : Block) (offset : Nat) : Option Nat :=
  match σ.slots block offset with
  | .empty => none
  | .cache cache => some cache
  | .clone clone => some (σ.clones clone)
  | .link _ cache => some cache

end MitScheme.Lookup
