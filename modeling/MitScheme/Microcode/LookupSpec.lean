import MitScheme.Microcode.Lookup

/-!
# Coherence of variable caches

The operations on environments, runs of them, and what should hold in every state that a
run reaches: a reference of compiled code uses the cache of the cell in which a lookup by
its name, from the environment of its block, finds the variable.

An operation that makes a binding visible, or takes one away, is right about the caches if
the references it moves are those whose lookup passes the frame. It is not always: the
references are moved from the first entry for the symbol in one cache, with all whose
block is below the frame, and defining an unbound parameter moves none at all.
-/

namespace MitScheme.Lookup

variable {V : Type}

/-- A live reference, recorded in a cache under a name. -/
def Recorded (σ : State V) (cache : Nat) (kind : Kind) (symbol : Symbol) (block : Block)
    (offset : Nat) : Prop :=
  ∃ references, (symbol, references) ∈ σ.references cache kind
    ∧ ⟨some block, offset⟩ ∈ references

/-! ## Runs -/

/-- A value that a variable can be given. -/
def Storable : Object V → Prop
  | .unbound => False
  | .compilerCached _ => False
  | _ => True

/-- The operations, and the garbage collector, which takes away the blocks that nothing else
refers to. -/
inductive Operation (V : Type) where
  | define (environment : Environment) (symbol : Symbol) (value : { v : Object V // Storable v })
  | assign (environment : Environment) (symbol : Symbol) (value : { v : Object V // Storable v })
  | link (targetEnvironment : Environment) (targetSymbol : Symbol)
      (sourceEnvironment : Environment) (sourceSymbol : Symbol)
  | unbind (environment : Environment) (symbol : Symbol)
  | addReference (environment : Environment) (symbol : Symbol) (block : Block) (offset : Nat)
      (kind : Kind)
  | collectGarbage (dead : Block → Bool)

/-- The references after a garbage collection. -/
def collectReferences (dead : Block → Bool) (list : ReferenceList) : ReferenceList :=
  list.map fun entry =>
    (entry.1, entry.2.map fun r => { r with block := r.block.filter fun block => !dead block })

/-- The state after an operation, if it returns. -/
def perform (σ : State V) : Operation V → Option (State V)
  | .define environment symbol value =>
      (defineVariable σ environment symbol value.1).map Outcome.state
  | .assign environment symbol value =>
      some (assignVariable σ environment symbol value.1).state
  | .link targetEnvironment targetSymbol sourceEnvironment sourceSymbol =>
      (linkVariables σ targetEnvironment targetSymbol sourceEnvironment sourceSymbol).map
        Outcome.state
  | .unbind environment symbol => (unbindVariable σ environment symbol).map Outcome.state
  | .addReference environment symbol block offset kind =>
      some (addCacheReference σ environment symbol block offset kind).state
  | .collectGarbage dead =>
      some { σ with
        caches := fun cache =>
          { σ.caches cache with
            references := fun kind => collectReferences dead (σ.references cache kind) } }

/-- An environment before any compiled code refers to it. -/
structure Initial (σ : State V) : Prop where
  uncached : ∀ cell, cellCache σ cell = none
  unextended : ∀ frame, σ.extensions frame = []
  unrecorded : ∀ cache kind, σ.references cache kind = []
  uncloned : ∀ cache, (σ.caches cache).clone = none
  uninstalled : ∀ block offset, slotCache σ block offset = none

/-- A lookup from an environment passes the frame: no frame before it binds the symbol. -/
def passesFrame (σ : State V) (symbol : Symbol) (frame : Environment) : Environment → Bool
  | .procedureFrame n parameters nodup parent =>
      let environment := .procedureFrame n parameters nodup parent
      if environment = frame then true
      else if (scanFrame σ environment symbol false).isSome then false
      else passesFrame σ symbol frame parent
  | environment => environment = frame

/-- The reference lists without the entry that `find_references_named` finds. -/
def otherReferences (symbol : Symbol) : ReferenceList → ReferenceList
  | [] => []
  | entry :: list =>
      if entry.1 = symbol then list else entry :: otherReferences symbol list

/-- The parent of a frame. -/
def parentOf : Environment → Environment
  | .procedureFrame _ _ _ parent => parent
  | environment => environment

/-- The cache of the variable that a frame shadows. -/
def shadowedCache (σ : State V) (frame : Environment) (symbol : Symbol) : Option Nat :=
  (findBindingCell σ (parentOf frame) symbol).1.bind (cellCache σ)

end MitScheme.Lookup
