import Mathlib.Logic.Function.Basic

/-!
# Calls through UUO links

The frame that `setup_compiled_invocation` of `cmpint.c` makes on the stack for a compiled procedure, the
link that `make_uuo_link` installs for a caller, and the trampolines that a link may go through. The stack
grows towards lower addresses, and the first argument is on top.

Entities, primitives and the lookup of variables, which links serve as well, are left out. So is what
happens when the stack has overflowed its guard already, and the code that a trampoline is made of.
-/

namespace MitScheme.UuoLinks

open Function (update)

/-- A Scheme object, as far as it matters to a call. -/
inductive Object where
  | default
  | emptyList
  | list (address : Nat)
  | frameHeader (datum : Nat)
  | returnCode (code : Nat)
  | fixnum (value : Int)
  | compiledEntry (address : Nat)
  | other (datum : Nat)
  deriving DecidableEq

def Object.returnCodeP : Object → Bool
  | .returnCode _ => true
  | _ => false

/-- The stack, the heap and the registers. -/
structure Machine where
  stack : Int → Object
  stackPointer : Int
  stackGuard : Int
  lastReturnCode : Int
  heap : Nat → Object
  free : Nat
  heapStart : Nat
  heapAllocLimit : Nat
  gcSpaceNeeded : Nat
  intCode : Nat
  intMask : Nat
  returnToInterpreter : Object

/-- Codes that are returned to C. -/
inductive Code where
  | primDone
  | primInterrupt
  | primApplyInterrupt
  | errCompiledCodeError
  | errInapplicableObject
  | errWrongNumberOfArguments
  deriving DecidableEq

/-- What `read_cc_entry_type` makes of an entry. -/
inductive EntryType where
  | unreadable
  | notProcedure
  | procedure (nRequired nOptional : Nat) (restP : Bool)

structure CompiledEntry where
  object : Object
  type : EntryType

namespace Machine

variable (m : Machine)

def stackRef (offset : Nat) : Object := m.stack (m.stackPointer + offset)

/-- `STACK_PUSH` -/
def push (object : Object) : Machine :=
  { m with
    stack := update m.stack (m.stackPointer - 1) object
    stackPointer := m.stackPointer - 1 }

/-- What `STACK_POP` leaves. -/
def pop : Machine := { m with stackPointer := m.stackPointer + 1 }

def intStackOverflow : Nat := 1
def intGc : Nat := 4

def requestInterrupt (code : Nat) : Machine := { m with intCode := m.intCode ||| code }

/-- `PENDING_INTERRUPTS_P` -/
def pendingInterrupts : Bool := m.intMask &&& m.intCode != 0

/-- `CAN_PUSH_P` -/
def canPush (n : Nat) : Bool := m.stackGuard ≤ m.stackPointer - n

def stackCheck (n : Nat) : Machine :=
  if m.canPush n then m else m.requestInterrupt intStackOverflow

/-- `HEAP_AVAILABLE_P` -/
def heapAvailable (nWords : Nat) : Bool :=
  (m.heapStart ≤ m.free && m.free < m.heapAllocLimit) && m.free + nWords ≤ m.heapAllocLimit

/-- `GC_NEEDED_P` -/
def gcNeeded (nWords : Nat) : Bool := !m.heapAvailable nWords && (m.intMask &&& intGc != 0)

def requestGc (nWords : Nat) : Machine :=
  { m.requestInterrupt intGc with gcSpaceNeeded := nWords }

end Machine

/-- Words are popped from one place and into another one. -/
def copyUp (source target : Int) : Nat → (Int → Object) → Int → Object
  | 0, stack => stack
  | n + 1, stack => copyUp (source + 1) (target + 1) n (update stack target (stack source))

/-- Words are pushed from one place to another one. -/
def copyDown (source target : Int) : Nat → (Int → Object) → Int → Object
  | 0, stack => stack
  | n + 1, stack =>
      copyDown (source - 1) (target - 1) n (update stack (target - 1) (stack (source - 1)))

def openStackGap (offset nWords : Nat) (m : Machine) : Machine :=
  { m with
    stack := copyUp m.stackPointer (m.stackPointer - nWords) offset m.stack
    stackPointer := m.stackPointer - nWords }

def closeStackGap (offset nWords : Nat) (m : Machine) : Machine :=
  { m with
    stack := copyDown (m.stackPointer + offset) (m.stackPointer + offset + nWords) offset m.stack
    stackPointer := m.stackPointer + nWords }

/-- The loop of `open_gap`. -/
def fillDefaults (scan : Int) : Nat → (Int → Object) → Int → Object
  | 0, stack => stack
  | n + 1, stack => fillDefaults (scan + 1) n (update stack scan .default)

/-- `open_gap`, which tells if there is an interrupt instead. -/
def openGap (nArgs nNeeded : Nat) (m : Machine) : Bool × Machine :=
  let nDefaults := nNeeded - nArgs
  let m := m.stackCheck nDefaults
  if m.pendingInterrupts then (true, m)
  else
    let m := openStackGap nArgs nDefaults m
    (false, { m with stack := fillDefaults (m.stackPointer + nArgs) nDefaults m.stack })

/-- `RC_REENTER_COMPILED_CODE` -/
def reenterCompiledCode : Nat := 0x1D

def continuationSize : Nat := 2

def saveLastReturnCode (code : Nat) (m : Machine) : Machine :=
  (m.push (.fixnum (m.lastReturnCode - m.stackPointer))).push (.returnCode code)

def applyFrameSize (m : Machine) : Nat :=
  match m.stackRef 0 with
  | .frameHeader datum => datum
  | _ => 0

def guaranteeInterpReturn (m : Machine) : Machine :=
  let offset := 1 + applyFrameSize m
  if (m.stackRef offset).returnCodeP then m
  else if m.stackRef offset = m.returnToInterpreter then closeStackGap offset 1 m
  else
    let m := openStackGap offset continuationSize m
    { saveLastReturnCode reenterCompiledCode
        { m with stackPointer := m.stackPointer + (offset + continuationSize : Nat) } with
      stackPointer := m.stackPointer }

def recoverFromApplyError (procedure : Object) (nArgs : Nat) (m : Machine) : Machine :=
  guaranteeInterpReturn ((m.push procedure).push (.frameHeader (nArgs + 1)))

/-- The loop that conses the surplus arguments. -/
def consRest (p1 : Int) : Nat → Machine → Machine
  | 0, m => m
  | n + 1, m =>
      consRest (p1 + 1) n
        { m with
          heap := update (update m.heap m.free (m.stack p1)) (m.free + 1)
            (.list (m.free + 2))
          free := m.free + 2 }

def setupLexprInvocation (procedure : Object) (nArgs nMax : Nat) (m : Machine) : Code × Machine :=
  if nArgs ≤ nMax then
    match openGap nArgs (nMax + 1) m with
    | (true, m) => (.primApplyInterrupt, recoverFromApplyError procedure nArgs m)
    | (false, m) =>
        (.primDone, { m with stack := update m.stack (m.stackPointer + nMax) .emptyList })
  else
    let nWords := (nArgs - nMax) * 2
    if m.gcNeeded nWords then
      (.primApplyInterrupt, recoverFromApplyError procedure nArgs (m.requestGc nWords))
    else
      let restArg := Object.list m.free
      let m := consRest (m.stackPointer + nMax) (nArgs - nMax) m
      let m := { m with heap := update m.heap (m.free - 1) .emptyList }
      -- the list takes the place of the last argument, and the first ones are moved next to it
      let p1 : Int := m.stackPointer + nArgs - 1
      let stack := update m.stack p1 restArg
      (.primDone, { m with
        stack := copyDown (m.stackPointer + nMax) p1 nMax stack
        stackPointer := p1 - nMax })

def setupCompiledInvocation (procedure : CompiledEntry) (nArgs : Nat) (m : Machine) : Code × Machine :=
  match procedure.type with
  | .unreadable => (.errCompiledCodeError, recoverFromApplyError procedure.object nArgs m)
  | .notProcedure => (.errInapplicableObject, recoverFromApplyError procedure.object nArgs m)
  | .procedure nMin nOptional restP =>
      if nArgs < nMin then
        (.errWrongNumberOfArguments, recoverFromApplyError procedure.object nArgs m)
      else
        let nMax := nMin + nOptional
        if restP then setupLexprInvocation procedure.object nArgs nMax m
        else if nArgs = nMax then (.primDone, m)
        else if nMax < nArgs then
          (.errWrongNumberOfArguments, recoverFromApplyError procedure.object nArgs m)
        else
          match openGap nArgs nMax m with
          | (true, m) => (.primApplyInterrupt, recoverFromApplyError procedure.object nArgs m)
          | (false, m) => (.primDone, m)

/-! ## Trampolines -/

/-- `trampoline_type_t`, up to the last one that `make_uuo_link` uses. -/
inductive TrampolineKind where
  | returnToInterpreter
  | apply
  | arity
  | entity
  | interpreted
  | lexprPrimitive
  | primitive
  | lookup
  | k_1_0
  | k_2_1
  | k_2_0
  | k_3_2
  | k_3_1
  | k_3_0
  | k_4_3
  | k_4_2
  | k_4_1
  | k_4_0
  deriving DecidableEq

/-- The byte that a trampoline passes on. -/
def TrampolineKind.code : TrampolineKind → Nat := TrampolineKind.ctorIdx

/-- The utilities at the beginning of `utility_table`. -/
inductive Utility where
  | returnToInterpreter
  | operatorApplyTrap
  | operatorLexprTrap
  | operatorPrimitiveTrap
  | operatorLookupTrap
  | operator_1_0_trap
  | operator_2_1_trap
  | operator_2_0_trap
  | operator_3_2_trap
  | operator_3_1_trap
  | operator_3_0_trap
  | operator_4_3_trap
  | operator_4_2_trap
  | operator_4_1_trap
  | operator_4_0_trap
  deriving DecidableEq

def utilityTable : List Utility :=
  [.returnToInterpreter, .operatorApplyTrap, .operatorApplyTrap, .operatorApplyTrap, .operatorApplyTrap,
    .operatorLexprTrap, .operatorPrimitiveTrap, .operatorLookupTrap, .operator_1_0_trap,
    .operator_2_1_trap, .operator_2_0_trap, .operator_3_2_trap, .operator_3_1_trap, .operator_3_0_trap,
    .operator_4_3_trap, .operator_4_2_trap, .operator_4_1_trap, .operator_4_0_trap]

def trampolineTableSize : Nat := 4

def trampolineArityTable : List TrampolineKind :=
  [.k_1_0, .apply, .apply, .apply,
    .k_2_0, .k_2_1, .apply, .apply,
    .k_3_0, .k_3_1, .k_3_2, .apply,
    .k_4_0, .k_4_1, .k_4_2, .k_4_3]

/-- A trampoline, with what its storage holds. -/
structure Trampoline where
  kind : TrampolineKind
  procedure : CompiledEntry
  frameSize : Nat

/-- What a UUO link leads to. -/
inductive Link where
  | direct (procedure : CompiledEntry)
  | trampoline (trampoline : Trampoline)

/-- Where a utility returns to. -/
inductive Outcome where
  | toScheme (procedure : CompiledEntry) (m : Machine)
  | toC (code : Code) (m : Machine)

/-- `comutil_apply` of a compiled entry. -/
def apply (procedure : CompiledEntry) (frameSize : Nat) (m : Machine) : Outcome :=
  match setupCompiledInvocation procedure (frameSize - 1) m with
  | (.primDone, m) => .toScheme procedure m
  | (code, m) => .toC code m

def operator_1_0_trap (m : Machine) : Machine := m.push .default

def operator_2_0_trap (m : Machine) : Machine := (m.push .default).push .default

def operator_2_1_trap (m : Machine) : Machine :=
  let a1 := m.stackRef 0
  (m.pop.push .default).push a1

def operator_3_0_trap (m : Machine) : Machine :=
  ((m.push .default).push .default).push .default

def operator_3_1_trap (m : Machine) : Machine :=
  let a1 := m.stackRef 0
  ((m.pop.push .default).push .default).push a1

def operator_3_2_trap (m : Machine) : Machine :=
  let a1 := m.stackRef 0
  let m := m.pop
  let a2 := m.stackRef 0
  ((m.pop.push .default).push a2).push a1

def operator_4_0_trap (m : Machine) : Machine :=
  (((m.push .default).push .default).push .default).push .default

def operator_4_1_trap (m : Machine) : Machine :=
  let a1 := m.stackRef 0
  (((m.pop.push .default).push .default).push .default).push a1

def operator_4_2_trap (m : Machine) : Machine :=
  let a1 := m.stackRef 0
  let m := m.pop
  let a2 := m.stackRef 0
  (((m.pop.push .default).push .default).push a2).push a1

def operator_4_3_trap (m : Machine) : Machine :=
  let a1 := m.stackRef 0
  let m := m.pop
  let a2 := m.stackRef 0
  let m := m.pop
  let a3 := m.stackRef 0
  (((m.pop.push .default).push a3).push a2).push a1

/-- A utility that a trampoline calls. Those for other objects than compiled procedures are left out. -/
def Utility.run (t : Trampoline) (m : Machine) : Utility → Option Outcome
  | .operatorApplyTrap => some (UuoLinks.apply t.procedure t.frameSize m)
  | .operator_1_0_trap => some (.toScheme t.procedure (UuoLinks.operator_1_0_trap m))
  | .operator_2_1_trap => some (.toScheme t.procedure (UuoLinks.operator_2_1_trap m))
  | .operator_2_0_trap => some (.toScheme t.procedure (UuoLinks.operator_2_0_trap m))
  | .operator_3_2_trap => some (.toScheme t.procedure (UuoLinks.operator_3_2_trap m))
  | .operator_3_1_trap => some (.toScheme t.procedure (UuoLinks.operator_3_1_trap m))
  | .operator_3_0_trap => some (.toScheme t.procedure (UuoLinks.operator_3_0_trap m))
  | .operator_4_3_trap => some (.toScheme t.procedure (UuoLinks.operator_4_3_trap m))
  | .operator_4_2_trap => some (.toScheme t.procedure (UuoLinks.operator_4_2_trap m))
  | .operator_4_1_trap => some (.toScheme t.procedure (UuoLinks.operator_4_1_trap m))
  | .operator_4_0_trap => some (.toScheme t.procedure (UuoLinks.operator_4_0_trap m))
  | _ => none

/-- A call jumps to the target of its link. -/
def Link.call (m : Machine) : Link → Option Outcome
  | .direct procedure => some (.toScheme procedure m)
  | .trampoline t => (utilityTable[t.kind.code]?).bind (Utility.run t m)

/-- The size of the code of a trampoline is that of the machine. -/
def makeTrampoline (entrySize : Nat) (t : Trampoline) (nValues : Nat) (m : Machine) :
    Code × Option Link × Machine :=
  let nWords := 1 + (1 + entrySize + nValues)
  if m.gcNeeded nWords then (.primInterrupt, none, m.requestGc nWords)
  else (.primDone, some (.trampoline t), { m with free := m.free + nWords })

/-- `make_uuo_link` for a compiled entry. The frame size is that of the calls, with the operator. A
trampoline for an arity is a redirection, and stores no frame size. -/
def makeUuoLink (entrySize : Nat) (procedure : CompiledEntry) (frameSize : Nat) (m : Machine) :
    Code × Option Link × Machine :=
  let nArgs := frameSize - 1
  match procedure.type with
  | .procedure nMin nOptional restP =>
      let nMax := nMin + nOptional
      if restP then makeTrampoline entrySize ⟨.apply, procedure, frameSize⟩ 2 m
      else if nArgs = nMax then (.primDone, some (.direct procedure), m)
      else if nArgs < nMax ∧ nMin ≤ nArgs ∧ nMin < nMax ∧ nMax ≤ trampolineTableSize then
        let kind := trampolineArityTable.getD ((nMax - 1) * trampolineTableSize + nArgs) .apply
        makeTrampoline entrySize ⟨kind, procedure, 0⟩ 1 m
      else makeTrampoline entrySize ⟨.apply, procedure, frameSize⟩ 2 m
  | _ => (.errCompiledCodeError, none, m)

end MitScheme.UuoLinks
