import MitScheme.Compiler.Rtl

/-!
# Register lifetime analysis

`rlife.scm`. The registers that are live at the ends of the blocks are the least fixed point
of equations between them: passes over the blocks are made until nothing changes. A last pass
goes backward through each block, deletes assignments to registers that are not live, and
says of each other instruction which registers die there.

Sets of registers are bit strings in the source. What is counted for the register allocator
on the way, how often and how long a register is used, and across which calls, is left out.
-/

namespace MitScheme.Rtl

variable (numberOfMachineRegisters : Nat)

def markSetRegisters : Rtl → Finset Nat
  | .assign (.register number) _ =>
      if pseudoRegisterP numberOfMachineRegisters number then {number} else ∅
  | _ => ∅

/-- The registers that `mark-used-registers!` comes to, when `needed` are live after the
instruction. -/
def markUsedRegisters (needed : Finset Nat) : Rtl → List Nat
  | .assign (.register number) expression =>
      if pseudoRegisterP numberOfMachineRegisters number = false ∨ number ∈ needed then
        expression.pseudoRegisters numberOfMachineRegisters
      else []
  | .assign address expression =>
      address.pseudoRegisters numberOfMachineRegisters
        ++ expression.pseudoRegisters numberOfMachineRegisters
  | .statement _ _ subexpressions =>
      pseudoRegistersOf numberOfMachineRegisters subexpressions
  | .predicate _ _ subexpressions =>
      pseudoRegistersOf numberOfMachineRegisters subexpressions

/-- The registers that die at an instruction, added to those it has. -/
def addDeadRegisters (needed : Finset Nat) : List Nat → List Nat → List Nat
  | [], dead => dead
  | register :: used, dead =>
      addDeadRegisters needed used
        (if register ∉ needed ∧ register ∉ dead then register :: dead else dead)

def updateLiveRegisters (old : Finset Nat) (rtl : Rtl) : Finset Nat :=
  (old \ markSetRegisters numberOfMachineRegisters rtl)
    ∪ (markUsedRegisters numberOfMachineRegisters old rtl).toFinset

/-- `instruction-dead?` -/
def instructionDeadP (needed : Finset Nat) : Rtl → Bool
  | .assign (.register number) expression =>
      pseudoRegisterP numberOfMachineRegisters number && decide (number ∉ needed)
        && !expression.containsVolatile
  | _ => false

/-- `propagate-block`: the registers that are live at the entry, from those at the exit. -/
def propagateBlock (live : Finset Nat) : List Rinst → Finset Nat
  | [] => live
  | rinst :: rinsts =>
      updateLiveRegisters numberOfMachineRegisters (propagateBlock live rinsts) rinst.rtl

/-- `propagate-block&delete!`, with the instructions that remain. -/
def propagateBlockAndDelete (live : Finset Nat) : List Rinst → Finset Nat × List Rinst
  | [] => (live, [])
  | rinst :: rinsts =>
      let (old, rest) := propagateBlockAndDelete live rinsts
      if instructionDeadP numberOfMachineRegisters old rinst.rtl then (old, rest)
      else
        (updateLiveRegisters numberOfMachineRegisters old rinst.rtl,
          { rinst with
            deadRegisters := addDeadRegisters old
              (markUsedRegisters numberOfMachineRegisters old rinst.rtl) rinst.deadRegisters }
            :: rest)

/-- The sets of registers of the blocks. -/
structure Lifetimes where
  liveAtEntry : Nat → Finset Nat
  liveAtExit : Nat → Finset Nat
  newLiveAtExit : Nat → Finset Nat

/-- What `walk-bblocks` does to a block. -/
def visit (g : Rgraph) (s : Lifetimes) (bblock : Nat) : Lifetimes :=
  let live := s.newLiveAtExit bblock
  let entry := propagateBlock numberOfMachineRegisters live (g.instructions bblock)
  { liveAtEntry := Function.update s.liveAtEntry bblock entry
    liveAtExit := Function.update s.liveAtExit bblock live
    newLiveAtExit := fun b =>
      if b ∈ g.previous bblock then s.newLiveAtExit b ∪ entry else s.newLiveAtExit b }

/-- A pass over the blocks, and whether something has changed. -/
def pass (g : Rgraph) (firstPassP : Bool) : List Nat → Lifetimes → Lifetimes × Bool
  | [], s => (s, false)
  | bblock :: bblocks, s =>
      if firstPassP = true ∨ s.liveAtExit bblock ≠ s.newLiveAtExit bblock then
        ((pass g firstPassP bblocks (visit numberOfMachineRegisters g s bblock)).1, true)
      else pass g firstPassP bblocks s

/-- The loop of `walk-bblocks`, for at most so many passes. -/
def walkBblocks (g : Rgraph) : Nat → Bool → Lifetimes → Option Lifetimes
  | 0, _, _ => none
  | fuel + 1, firstPassP, s =>
      let (s', changedP) := pass numberOfMachineRegisters g firstPassP g.bblocks s
      if changedP then walkBblocks g fuel false s' else some s'

/-- What is known of a graph after the analysis. -/
structure Analysis where
  liveAtEntry : Nat → Finset Nat
  liveAtExit : Nat → Finset Nat
  instructions : Nat → List Rinst

/-- `walk-rgraph`, with at most so many passes before the last one. -/
def walkRgraph (g : Rgraph) (fuel : Nat) : Option Analysis :=
  (walkBblocks numberOfMachineRegisters g fuel true ⟨fun _ => ∅, fun _ => ∅, fun _ => ∅⟩).map
    fun s =>
      { liveAtEntry := fun b =>
          (propagateBlockAndDelete numberOfMachineRegisters (s.liveAtExit b)
            (g.instructions b)).1
        liveAtExit := s.liveAtExit
        instructions := fun b =>
          (propagateBlockAndDelete numberOfMachineRegisters (s.liveAtExit b)
            (g.instructions b)).2 }

end MitScheme.Rtl
