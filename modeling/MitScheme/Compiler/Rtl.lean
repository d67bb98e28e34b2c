import Mathlib.Data.Finset.Basic

/-!
# The register transfer language

`rtlty1.scm`, `rtlexp.scm` and `rtlcfg.scm`. An expression is a list whose first element is
its type, and whose other elements are expressions or not; here the ones are kept apart from
the others. A flow graph has blocks of instructions, and each block has at most two
successors.
-/

namespace MitScheme.Rtl

/-- What is not an expression in an expression. -/
inductive Atom where
  | number (n : Int)
  | name (s : String)
deriving DecidableEq, Repr

/-- The types of expressions, but for registers and constants. The arithmetic ones say whether
the overflow is asked for. -/
inductive ExpressionType where
  | offset
  | preIncrement
  | postIncrement
  | byteOffset
  | floatOffset
  | entryContinuation
  | entryProcedure
  | consClosure
  | consMulticlosure
  | assignmentCache
  | variableCache
  | objectToAddress
  | offsetAddress
  | byteOffsetAddress
  | floatOffsetAddress
  | machineConstant
  | objectToDatum
  | objectToType
  | consPointer
  | consNonPointer
  | charToAscii
  | objectToFixnum
  | objectToUnsignedFixnum
  | fixnumToObject
  | fixnumToAddress
  | addressToFixnum
  | fixnum1Arg (overflowP : Bool)
  | fixnum2Args (overflowP : Bool)
  | floatToObject
  | objectToFloat
  | flonum1Arg (overflowP : Bool)
  | flonum2Args (overflowP : Bool)
deriving DecidableEq, Repr

inductive Expression where
  | register (number : Nat)
  | constant (value : Atom)
  | compound (type : ExpressionType) (atoms : List Atom) (subexpressions : List Expression)

/-! ## Statements and predicates -/

inductive StatementType where
  | popReturn
  | continuationEntry
  | continuationHeader
  | icProcedureHeader
  | openProcedureHeader
  | procedureHeader
  | closureHeader
  | interpreterCallAccess
  | interpreterCallDefine
  | interpreterCallLookup
  | interpreterCallSet
  | interpreterCallUnassignedP
  | interpreterCallUnboundP
  | interpreterCallCacheAssignment
  | interpreterCallCacheReference
  | interpreterCallCacheUnassignedP
  | invocationApply
  | invocationJump
  | invocationComputedJump
  | invocationLexpr
  | invocationComputedLexpr
  | invocationUuoLink
  | invocationGlobalLink
  | invocationPrimitive
  | invocationSpecialPrimitive
  | invocationCacheReference
  | invocationLookup
  | invocationPrefixMoveFrameUp
  | invocationPrefixDynamicLink
deriving DecidableEq, Repr

inductive PredicateType where
  | fixnumPred1Arg
  | fixnumPred2Args
  | flonumPred1Arg
  | flonumPred2Args
  | eqTest
  | typeTest
  | pred1Arg
  | pred2Args
  | overflowTest
deriving DecidableEq, Repr

/-- The RTL of an instruction. -/
inductive Rtl where
  | assign (address expression : Expression)
  | statement (type : StatementType) (atoms : List Atom) (subexpressions : List Expression)
  | predicate (type : PredicateType) (atoms : List Atom) (subexpressions : List Expression)

/-- `rtl:volatile-expression?` -/
def volatileType : ExpressionType → Bool
  | .preIncrement => true
  | .postIncrement => true
  | _ => false

mutual

/-- `rtl:expression-contains?`, for `rtl:volatile-expression?`. -/
def Expression.containsVolatile : Expression → Bool
  | .register _ => false
  | .constant _ => false
  | .compound type _ subexpressions => volatileType type || anyContainsVolatile subexpressions

/-- `rtl:any-subexpression?` -/
def anyContainsVolatile : List Expression → Bool
  | [] => false
  | e :: es => e.containsVolatile || anyContainsVolatile es

end

/-- `pseudo-register?` -/
def pseudoRegisterP (numberOfMachineRegisters register : Nat) : Bool :=
  numberOfMachineRegisters ≤ register

mutual

/-- The pseudo registers of an expression, in the order in which `mark-used-registers!` comes
to them. -/
def Expression.pseudoRegisters (numberOfMachineRegisters : Nat) : Expression → List Nat
  | .register number =>
      if pseudoRegisterP numberOfMachineRegisters number then [number] else []
  | .constant _ => []
  | .compound _ _ subexpressions => pseudoRegistersOf numberOfMachineRegisters subexpressions

/-- `rtl:for-each-subexpression` -/
def pseudoRegistersOf (numberOfMachineRegisters : Nat) : List Expression → List Nat
  | [] => []
  | e :: es =>
      e.pseudoRegisters numberOfMachineRegisters ++ pseudoRegistersOf numberOfMachineRegisters es

end

/-- An instruction, with the registers that are dead after it. -/
structure Rinst where
  rtl : Rtl
  deadRegisters : List Nat

/-- The successors of a block: one, if there is one, or two that a predicate decides between. -/
inductive Next where
  | sblock (next : Option Nat)
  | pblock (consequent alternative : Option Nat)
deriving DecidableEq

def Next.successors : Next → List Nat
  | .sblock next => next.toList
  | .pblock consequent alternative => consequent.toList ++ alternative.toList

/-- A flow graph. Blocks are told apart by numbers. -/
structure Rgraph where
  bblocks : List Nat
  instructions : Nat → List Rinst
  next : Nat → Next
  nodup : bblocks.Nodup
  closed : ∀ b ∈ bblocks, ∀ c ∈ (next b).successors, c ∈ bblocks

/-- `for-each-previous-node` -/
def Rgraph.previous (g : Rgraph) (bblock : Nat) : List Nat :=
  g.bblocks.filter fun b => (g.next b).successors.contains bblock

theorem Rgraph.mem_previous {g : Rgraph} {b c : Nat} :
    b ∈ g.previous c ↔ b ∈ g.bblocks ∧ c ∈ (g.next b).successors := by
  simp [Rgraph.previous]

end MitScheme.Rtl
