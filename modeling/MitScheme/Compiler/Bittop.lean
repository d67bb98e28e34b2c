import MitScheme.Compiler.Bitutl

/-!
# Assembler top level

`bittop.scm`. The instructions become directives, whose widths are fixed or are still to be
chosen among those of some selectors. `relax!` chooses: a pass gives every label an interval of
addresses and narrows the choice of each field by the values that its expression can have.
`final-phase` then places the directives one after the other in the output block.

A vector that the source changes in place is replaced where it stands in the list of
directives. The list of the variable-width directives is not kept apart from that list.
-/

namespace MitScheme.Assembler

variable {Name : Type}

/-! ## Directives -/

/-- `list->bit-string` -/
def listToBitString : List Bits → Bits
  | [] => []
  | [bits] => bits
  | bits :: l => bits ++ listToBitString l

def variableHandlerWrapper (handler : Int → List Bits) (value : Int) : Bits :=
  match handler value with
  | [] => []
  | bits :: l => listToBitString (bits :: l)

/-- One way to encode a field. What the handler makes has the length that is announced. -/
structure Selector where
  handler : Int → List Bits
  length : Nat
  low : Option Int
  high : Option Int
  handler_length : ∀ value, (variableHandlerWrapper handler value).length = length

/-- An `EVALUATION` directive. -/
structure Evaluation (Name : Type) where
  expression : Expression Name
  length : Nat
  handler : Int → Bits
  handler_length : ∀ value, (handler value).length = length

/-- What the assembler is given. -/
inductive Instruction (Name : Type) where
  | constant (bits : Bits)
  | evaluation (evaluation : Evaluation Name)
  | variableWidthExpression (expression : Expression Name) (selectors : List Selector)
  | group (body : List (Instruction Name))
  | label (name : Name)
  | blockOffset (label : Name)
  | equate (name : Name) (expression : Expression Name)
  | schemeObject (label : Name)
  | entryPoint (label : Name)
  | padding (remdr : Int) (divsr : Nat) (paddingString : Option Bits)

/-- The directives of fixed width. -/
inductive Fixed (Name : Type) where
  | constant (bits : Bits)
  | evaluation (evaluation : Evaluation Name)
  | blockOffset (label : Name)

/-- The vectors that `initial-phase` makes. -/
inductive Directive (Name : Type) where
  | label (name : Name)
  | tick (on : Bool)
  | fixedWidthGroup (width : Nat) (directives : List (Fixed Name))
  | variableWidthExpression (expression : Expression Name) (pc : Interval)
      (selectors : List Selector)
  | padding (remdr divsr : Int) (paddingString : Bits)

/-- The loop of `variable-width-lengths`. -/
def lengthsLoop : List Selector → Nat → Nat → Nat × Nat
  | [], min, max => (min, max)
  | this :: selectors, min, max =>
      if this.length < min then lengthsLoop selectors this.length max
      else if max < this.length then lengthsLoop selectors min this.length
      else lengthsLoop selectors min max

def variableWidthLengths : List Selector → Except (Failure Name) (Nat × Nat)
  | [] => .error .badVariableWidth
  | sel :: selectors => .ok (lengthsLoop selectors sel.length sel.length)

/-- `->padding-directive` -/
def toPaddingDirective (t : Target) (remdr : Int) (divsr : Nat) (paddingString : Option Bits) :
    Except (Failure Name) (Directive Name) :=
  if divsr = 0 then .error .divideByZero
  else .ok (.padding (remdr % divsr) divsr (paddingString.getD t.paddingString))

/-- `after-padding`, at one of the two ends. -/
def afterPadding (t : Target) (remdr divsr pc : Int) : Except (Failure Name) Int := do
  return toBitstringPc t (paddify (← toMachinePc t pc) remdr divsr)

variable [DecidableEq Name] (t : Target)

def setLabelValue (table : SymbolTable Name Interval) (name : Name) (low high : Int) :
    Except (Failure Name) (SymbolTable Name Interval) := do
  table.define name (← labelToMachineInterval t low high)

/-- The interval of `*PC*`: at the start of the innermost group, or here. -/
def pcInterval (pcStack : List Interval) (pcmin pcmax : Int) : Except (Failure Name) Interval :=
  match pcStack with
  | [] => labelToMachineInterval t pcmin pcmax
  | pc :: _ => .ok pc

/-- The stack after a `TICK`. -/
def tick (on : Bool) (pcStack : List Interval) (pcmin pcmax : Int) :
    Except (Failure Name) (List Interval) :=
  if on then do return (← labelToMachineInterval t pcmin pcmax) :: pcStack
  else .ok pcStack.tail

/-! ## Input conversion -/

/-- The state of the loop of `initial-phase`, with the queues that it adds to. -/
structure InitialPhase (Name : Type) where
  directives : List (Directive Name)
  pcmin : Int
  pcmax : Int
  pcStack : List Interval
  group : Option (Nat × List (Fixed Name))
  table : SymbolTable Name Interval
  equates : List (Name × Expression Name)
  objects : List Name
  entryPoints : List Name

namespace InitialPhase

variable (p : InitialPhase Name)

def collectGroup : InitialPhase Name :=
  match p.group with
  | none => p
  | some (width, directives) =>
      { p with
        directives := p.directives ++ [.fixedWidthGroup width directives.reverse]
        group := none }

/-- `new-directive!`. Every caller goes on without a group. -/
def newDirective (dir : Directive Name) : InitialPhase Name :=
  { p.collectGroup with directives := p.collectGroup.directives ++ [dir] }

def processFixedWidth (directive : Fixed Name) (width : Nat) : InitialPhase Name :=
  { p with
    pcmin := width + p.pcmin
    pcmax := width + p.pcmax
    group := some (match p.group with
      | none => (width, [directive])
      | some (groupWidth, directives) => (width + groupWidth, directive :: directives)) }

def processLabel (label : Name) : Except (Failure Name) (InitialPhase Name) := do
  let table ← setLabelValue t p.table label p.pcmin p.pcmax
  return { p.newDirective (.label label) with table }

def processVariableWidth (expression : Expression Name) (selectors : List Selector) :
    Except (Failure Name) (InitialPhase Name) := do
  let pc ← pcInterval t p.pcStack p.pcmin p.pcmax
  let (minl, maxl) ← variableWidthLengths selectors
  return { p.newDirective (.variableWidthExpression expression pc selectors) with
    pcmin := p.pcmin + minl
    pcmax := p.pcmax + maxl }

/-- The start of a `GROUP`. -/
def tickOn : Except (Failure Name) (InitialPhase Name) := do
  let pc ← labelToMachineInterval t p.pcmin p.pcmax
  return { p.newDirective (.tick true) with pcStack := pc :: p.pcStack }

def tickOff : InitialPhase Name :=
  { p.newDirective (.tick false) with pcStack := p.pcStack.tail }

/-- A `PADDING` directive. -/
def processPadding (remdr : Int) (divsr : Nat) (paddingString : Option Bits) :
    Except (Failure Name) (InitialPhase Name) := do
  let directive ← toPaddingDirective t remdr divsr paddingString
  let pcmin ← afterPadding t (remdr % divsr) divsr p.pcmin
  let pcmax ← afterPadding t (remdr % divsr) divsr p.pcmax
  return { p.newDirective directive with pcmin, pcmax }

end InitialPhase

mutual

/-- One turn of the loop of `initial-phase`. The source puts the body of a group, and a
`TICK-OFF` after it, in front of the instructions that are left. -/
def initialPhaseOne (p : InitialPhase Name) :
    Instruction Name → Except (Failure Name) (InitialPhase Name)
  | .constant bits => .ok (p.processFixedWidth (.constant bits) bits.length)
  | .evaluation evaluation =>
      .ok (p.processFixedWidth (.evaluation evaluation) evaluation.length)
  | .variableWidthExpression expression selectors =>
      p.processVariableWidth t expression selectors
  | .group body => do
      let p ← p.tickOn t
      let p ← initialPhaseLoop p body
      return p.tickOff
  | .label name => p.processLabel t name
  | .blockOffset label => .ok (p.processFixedWidth (.blockOffset label) t.blockOffsetWidth)
  | .equate name expression => .ok { p with equates := p.equates ++ [(name, expression)] }
  | .schemeObject label => .ok { p with objects := p.objects ++ [label] }
  | .entryPoint label => .ok { p with entryPoints := p.entryPoints ++ [label] }
  | .padding remdr divsr paddingString => p.processPadding t remdr divsr paddingString

def initialPhaseLoop (p : InitialPhase Name) :
    List (Instruction Name) → Except (Failure Name) (InitialPhase Name)
  | [] => .ok p
  | this :: toConvert => do initialPhaseLoop (← initialPhaseOne p this) toConvert

end

variable (startLabel endLabel : Name)

/-- `initialize-symbol-table!`, on a new table. -/
def initializeSymbolTable : SymbolTable Name Interval := [(startLabel, .number 0)]

def initialPhase (input : List (Instruction Name)) :
    Except (Failure Name) (InitialPhase Name) := do
  let p ← initialPhaseLoop t
    { directives := [], pcmin := startingPc t, pcmax := startingPc t, pcStack := [], group := none
      table := initializeSymbolTable startLabel, equates := [], objects := [], entryPoints := [] }
    input
  let table ← setLabelValue t p.table endLabel (finalPad t p.pcmin)
    (p.pcmax + t.maximumPaddingLength)
  return { p.collectGroup with table }

/-! ## Relaxation -/

/-- `phase-1`: the directives with the intervals of `*PC*` in them, and the labels. -/
def phase1 (widening : Bool) :
    List (Directive Name) → Int → Int → List Interval → SymbolTable Name Interval →
      Except (Failure Name) (List (Directive Name) × SymbolTable Name Interval)
  | [], pcmin, pcmax, _, table => do
      let emin := finalPad t pcmin
      let emax := if widening then emin else pcmax + t.maximumPaddingLength
      return ([], ← setLabelValue t table endLabel emin emax)
  | .label name :: rem, pcmin, pcmax, pcStack, table => do
      let table ← setLabelValue t table name pcmin pcmax
      let (rem, table) ← phase1 widening rem pcmin pcmax pcStack table
      return (.label name :: rem, table)
  | .fixedWidthGroup l directives :: rem, pcmin, pcmax, pcStack, table => do
      let (rem, table) ← phase1 widening rem (pcmin + l) (pcmax + l) pcStack table
      return (.fixedWidthGroup l directives :: rem, table)
  | .variableWidthExpression expression _ selectors :: rem, pcmin, pcmax, pcStack, table => do
      let pc ← pcInterval t pcStack pcmin pcmax
      let (minl, maxl) ← variableWidthLengths selectors
      let (rem, table) ←
        phase1 widening rem (pcmin + minl) (pcmax + if widening then minl else maxl) pcStack table
      return (.variableWidthExpression expression pc selectors :: rem, table)
  | .tick on :: rem, pcmin, pcmax, pcStack, table => do
      let pcStack ← tick t on pcStack pcmin pcmax
      let (rem, table) ← phase1 widening rem pcmin pcmax pcStack table
      return (.tick on :: rem, table)
  | .padding remdr divsr paddingString :: rem, pcmin, pcmax, pcStack, table => do
      let pcmin ← afterPadding t remdr divsr pcmin
      let pcmax ← afterPadding t remdr divsr pcmax
      let (rem, table) ← phase1 widening rem pcmin pcmax pcStack table
      return (.padding remdr divsr paddingString :: rem, table)

/-- `(<= low value)` for a bound that may be missing. -/
def Selector.aboveLow (sel : Selector) (value : Int) : Bool :=
  sel.low.all fun low => decide (low ≤ value)

/-- `(<= value high)` for a bound that may be missing. -/
def Selector.belowHigh (sel : Selector) (value : Int) : Bool :=
  sel.high.all fun high => decide (value ≤ high)

/-- `variable-width->fixed!` -/
def variableWidthToFixed (expression : Expression Name) (sel : Selector) : Directive Name :=
  .fixedWidthGroup sel.length
    [.evaluation
      { expression, length := sel.length, handler := variableHandlerWrapper sel.handler
        handler_length := sel.handler_length }]

/-- `process-variable`: what the directive becomes, whether it is determined, and whether
selectors were dropped. -/
def processVariable (expression : Expression Name) (pc : Interval) (widening : Bool)
    (minval maxval : Int) :
    List Selector → Bool → Except (Failure Name) (Directive Name × Bool × Bool)
  | [], _ => .error .cannotBeResolved
  | sel :: sels, droppedSome =>
      if sel.aboveLow minval && sel.belowHigh maxval then
        .ok (if widening then .variableWidthExpression expression pc (sel :: sels)
          else variableWidthToFixed expression sel, true, droppedSome)
      else if sel.aboveLow maxval && sel.belowHigh minval then
        .ok (.variableWidthExpression expression pc (sel :: sels), false, droppedSome)
      else processVariable expression pc widening minval maxval sels true

/-- `phase-2`: the directives, whether any was modified, and how many are not determined. The
last directive comes first in the list of variables. -/
def phase2 (widening : Bool) (table : SymbolTable Name Interval) :
    List (Directive Name) → Except (Failure Name) (List (Directive Name) × Bool × Nat)
  | [] => .ok ([], false, 0)
  | .variableWidthExpression expression pc selectors :: rem => do
      let (rem, modified, count) ← phase2 widening table rem
      let ends := intervalValues (← evaluate table (some pc) expression)
      let (directive, determined, filtered) ←
        processVariable expression pc widening ends.1 ends.2 selectors false
      return (directive :: rem, modified || filtered, if determined then count else count + 1)
  | directive :: rem => do
      let (rem, modified, count) ← phase2 widening table rem
      return (directive :: rem, modified, count)

/-- The labels of the objects, which come after the code one after the other. -/
def defineObjects :
    List Name → Int → Int → SymbolTable Name Interval →
      Except (Failure Name) (SymbolTable Name Interval)
  | [], _, _, table => .ok table
  | label :: objects, pcmin, pcmax, table => do
      let table ← setLabelValue t table label pcmin pcmax
      defineObjects objects (pcmin + t.schemeObjectWidth) (pcmax + t.schemeObjectWidth) table

/-- The equates, each in the table that has those before it. -/
def defineEquates {α : Type} [Add α] [Sub α] [IntCast α] :
    List (Name × Expression Name) → SymbolTable Name α →
      Except (Failure Name) (SymbolTable Name α)
  | [], table => .ok table
  | (name, expression) :: equates, table => do
      let table ← table.define name (← evaluate table none expression)
      defineEquates equates table

def finishSymbolTable (objects : List Name) (equates : List (Name × Expression Name))
    (table : SymbolTable Name Interval) : Except (Failure Name) (SymbolTable Name Interval) := do
  let ends := intervalValues (← table.value endLabel)
  let table ← defineObjects t objects (toBitstringPc t ends.1) (toBitstringPc t ends.2) table
  defineEquates equates table

/-- What is in the queues when `relax!` begins. -/
structure Queues (Name : Type) where
  startLabel : Name
  endLabel : Name
  equates : List (Name × Expression Name)
  objects : List Name

/-- What the loop of `relax!` is called with. -/
structure Pass (Name : Type) where
  widening : Bool
  directives : List (Directive Name)
  table : SymbolTable Name Interval
  count : Nat

/-- What one turn of the loop comes to. -/
inductive Turn (Name : Type) where
  | finished (directives : List (Directive Name)) (table : SymbolTable Name Interval) (count : Nat)
  | continues (pass : Pass Name)

def Directive.isVariable : Directive Name → Bool
  | .variableWidthExpression _ _ _ => true
  | _ => false

/-- `continue` of `relax!`. -/
def continueRelaxing (q : Queues Name) (widening : Bool) (directives : List (Directive Name))
    (count : Nat) : Except (Failure Name) (Turn Name) := do
  let (directives, table) ← phase1 t q.endLabel widening directives (startingPc t) (startingPc t)
    [] (initializeSymbolTable q.startLabel)
  return .continues { widening, directives, table, count := count + 1 }

/-- One turn of `loop` of `relax!`. -/
def turn (q : Queues Name) (p : Pass Name) : Except (Failure Name) (Turn Name) := do
  let table ← finishSymbolTable t q.endLabel q.objects q.equates p.table
  if p.directives.any Directive.isVariable then
    let (directives, modified, numberOfVars) ← phase2 p.widening table p.directives
    if modified then continueRelaxing t q false directives p.count
    else if numberOfVars = 0 then return .finished directives table p.count
    else continueRelaxing t q (!p.widening) directives p.count
  else return .finished p.directives table p.count

/-- `relax!`, when it takes no more than `fuel` turns of its loop. -/
def relax (q : Queues Name) : Nat → Pass Name →
    Except (Failure Name) (Option (List (Directive Name) × SymbolTable Name Interval × Nat))
  | 0, _ => .ok none
  | fuel + 1, p => do
      match ← turn t q p with
      | .finished directives table count => return some (directives, table, count)
      | .continues p => relax q fuel p

/-- The first pass: `relax!` is called with what `initial-phase` leaves. -/
def InitialPhase.firstPass (p : InitialPhase Name) : Pass Name :=
  { widening := false, directives := p.directives, table := p.table, count := 0 }

def InitialPhase.queues (p : InitialPhase Name) : Queues Name :=
  { startLabel, endLabel, equates := p.equates, objects := p.objects }

/-! ## Output block generation -/

/-- `instruction-insert!`: the bits are moved into the block at the position. -/
def instructionInsert (bits block : Bits) (position : Nat) : Except (Failure Name) Bits :=
  if position + bits.length ≤ block.length then
    .ok (block.take position ++ bits ++ block.drop (position + bits.length))
  else .error .badRange

/-- `replicate` -/
def replicateBits (bstring : Bits) (nTimes : Nat) : Bits := (List.replicate nTimes bstring).flatten

/-- The state of the loop of `assemble-directives!`. -/
structure Output (Name : Type) where
  block : Bits
  pc : Int
  pcStack : List Int
  position : Nat
  lastBlabel : Name
  blabel : Name

variable (table : SymbolTable Name Int)

def Output.actualBits (o : Output Name) (bits : Bits) (l : Int) :
    Except (Failure Name) (Output Name) := do
  let block ← instructionInsert bits o.block o.position
  return { o with block, pc := o.pc + l, position := o.position + bits.length }

/-- The value of `*PC*` in an expression. -/
def Output.pcValue (o : Output Name) : Except (Failure Name) Int :=
  match o.pcStack with
  | [] => toMachinePc t o.pc
  | pc :: _ => .ok pc

def Output.evaluation (o : Output Name) (handler : Int → Bits) (expression : Expression Name)
    (l : Nat) : Except (Failure Name) (Output Name) := do
  let value ← evaluate table (some (← o.pcValue t)) expression
  o.actualBits (handler value) l

def Output.blockOffset (o : Output Name) (offset : Int) (lastBlabel blabel : Name) :
    Except (Failure Name) (Output Name) := do
  match t.blockOffsetToBitString offset (decide (blabel = startLabel)) with
  | none => .error .badRange
  | some bits => do
      let o ← o.actualBits bits t.blockOffsetWidth
      return { o with lastBlabel, blabel }

/-- A directive of a group of fixed width. -/
def assembleFixed (o : Output Name) : Fixed Name → Except (Failure Name) (Output Name)
  | .constant bits => o.actualBits bits bits.length
  | .evaluation e => o.evaluation t table e.handler e.expression e.length
  | .blockOffset label => do
      let offset ← evaluate table none (.minus (.symbol label) (.symbol o.blabel))
      if t.maximumBlockOffset < offset then
        let offset ← evaluate table none (.minus (.symbol label) (.symbol o.lastBlabel))
        o.blockOffset t startLabel offset label o.lastBlabel
      else o.blockOffset t startLabel offset label o.blabel

/-- A directive in the loop of `assemble-directives!`. -/
def assembleDirective (o : Output Name) : Directive Name → Except (Failure Name) (Output Name)
  | .label label => do
      let pcdef ← table.value label
      if pcdef ≠ (← toMachinePc t o.pc) then .error .phaseError else return o
  | .tick on => do
      if on then return { o with pcStack := (← toMachinePc t o.pc) :: o.pcStack }
      else return { o with pcStack := o.pcStack.tail }
  | .fixedWidthGroup _ directives => directives.foldlM (assembleFixed t startLabel table) o
  | .variableWidthExpression _ _ [] => .error .badVariableWidth
  | .variableWidthExpression expression _ (sel :: _) =>
      o.evaluation t table (variableHandlerWrapper sel.handler) expression sel.length
  | .padding remdr divsr paddingString => do
      let pc ← afterPadding t remdr divsr o.pc
      let pcDiff := pc - o.pc
      if paddingString = [] then .error .divideByZero
      else if pcDiff.tmod paddingString.length ≠ 0 then .error .badPadding
      else
        o.actualBits (replicateBits paddingString (pcDiff.tdiv paddingString.length).toNat) pcDiff

/-- `end-assembly`, with `final-pad!`. -/
def Output.endAssembly (o : Output Name) : Except (Failure Name) Bits := do
  if (o.position : Int) ≠ o.pc - startingPc t then .error .phaseError
  else if (← table.value endLabel) ≠ (← toMachinePc t (finalPad t o.pc)) then .error .phaseError
  else
    instructionInsert
      (replicateBits t.paddingString
        ((finalPad t o.pc - o.pc).tdiv t.paddingString.length).toNat)
      o.block o.position

def assembleDirectives (block : Bits) (directives : List (Directive Name)) :
    Except (Failure Name) Bits := do
  let o ← directives.foldlM (assembleDirective t startLabel table)
    { block, pc := startingPc t, pcStack := [], position := 0, lastBlabel := startLabel
      blabel := startLabel }
  o.endAssembly t endLabel table

/-- The label values, converted to integers. -/
def finalValues (table : SymbolTable Name Interval) : SymbolTable Name Int :=
  table.map fun binding => (binding.1, intervalFinalValue binding.2)

def finalPhase (directives : List (Directive Name)) (table : SymbolTable Name Interval) :
    Except (Failure Name) Bits := do
  let table := finalValues table
  let blockLength := toBitstringPc t (← table.value endLabel) - startingPc t
  assembleDirectives t startLabel endLabel table (List.replicate blockLength.toNat false) directives

end MitScheme.Assembler
