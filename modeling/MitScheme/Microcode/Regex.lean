import Mathlib.Data.List.Basic
import MitScheme.Lib.Runs

/-!
# Regular expressions

The matcher of `regex.c`. A pattern is a list of bytes, which the matcher rewrites as it goes, and the text lies in memory
on both sides of the gap of a buffer. Addresses are relative to `buffer->text`, and memory has a byte at every address.
-/

namespace MitScheme.Regex

abbrev Byte := UInt8

/-- `RE_NREGS` -/
abbrev nregs : Nat := 10

/-- `struct re_buffer`, by the indices that `re_buffer_initialize` is given and assumes to be in order. -/
structure Buffer where
  translation : Option (Byte → Byte)
  syntaxTable : Byte → Nat
  text : Int → Byte
  textStartIndex : Nat
  textEndIndex : Nat
  gapStart : Nat
  gapEnd : Nat
  start_le : textStartIndex ≤ gapStart
  gap_le : gapStart ≤ gapEnd
  le_end : gapEnd ≤ textEndIndex

namespace Buffer

variable (buffer : Buffer)

/-- `buffer->text_start` -/
def textStart : Nat := if buffer.textStartIndex = buffer.gapStart then buffer.gapEnd else buffer.textStartIndex

/-- `buffer->text_end` -/
def textEnd : Nat := if buffer.textEndIndex = buffer.gapEnd then buffer.gapStart else buffer.textEndIndex

def gapLength : Nat := buffer.gapEnd - buffer.gapStart

def addressToIndex (address : Nat) : Nat :=
  if address > buffer.gapStart then address - buffer.gapLength else address

def translateChar (ascii : Byte) : Byte :=
  match buffer.translation with
  | none => ascii
  | some translation => translation ascii

def syntaxConstituentP (code : Nat) (ascii : Byte) : Bool := buffer.syntaxTable ascii &&& 0xF == code

/-- `WORD_CONSTITUENT_P`; `syntaxcode_word` is 2. -/
def wordConstituentP (ascii : Byte) : Bool := buffer.syntaxConstituentP 2 ascii

end Buffer

/-- `match_start` and `match_end`. -/
structure MatchRange where
  start : Nat
  stop : Nat

/-! ## Instructions -/

/-- What a word-bound instruction makes of the characters on the left and on the right. -/
inductive WordBound where
  | bound
  | notBound
  | start
  | stop
deriving DecidableEq, Repr

/-- The instructions. An operand is missing when reading it is `BAD_PATTERN`; some instructions read a character of the
text first. -/
inductive Instruction where
  | unused
  | exact1 (char : Option Byte)
  | exactN (chars : Option (List Byte))
  | lineStart
  | lineEnd
  | jump (target : Option Nat)
  | onFailureJump (target : Option Nat)
  | finalizeJump (target : Option Nat)
  | maybeFinalizeJump (target : Option Nat)
  | dummyFailureJump (target : Option Nat)
  | anyChar
  /-- `char_set`, or `not_char_set` -/
  | charSet (inverse : Bool) (set : Option (List Byte))
  | startMemory (register : Option (Fin nregs))
  | stopMemory (register : Option (Fin nregs))
  | duplicate (register : Option (Fin nregs))
  | bufferStart
  | bufferEnd
  /-- `word_char`, or `not_word_char` -/
  | wordChar (inverse : Bool)
  | wordBound (kind : WordBound)
  /-- `syntax_spec`, or `not_syntax_spec` -/
  | syntaxSpec (inverse : Bool) (code : Option Nat)
  | bad
deriving DecidableEq, Repr

/-- `READ_PATTERN_OFFSET`, and where the jump goes. -/
def readPatternOffset (code : List Byte) (pc : Nat) : Option Nat :=
  match code[pc]?, code[pc + 1]? with
  | some low, some high =>
      let offset : Int := low.toNat + (if high.toNat < 0x80 then (high.toNat : Int) else high.toNat - 0x100) * 0x100
      let target : Int := pc + 2 + offset
      if target < 0 ∨ target > code.length then none else some target.toNat
  | _, _ => none

/-- `READ_PATTERN_LENGTH`, and the bytes that are counted. -/
def readPatternLength (code : List Byte) (pc : Nat) : Option (List Byte) :=
  match code[pc]? with
  | some length => if pc + 1 + length.toNat > code.length then none else some ((code.drop (pc + 1)).take length.toNat)
  | none => none

def readPatternRegister (code : List Byte) (pc : Nat) : Option (Fin nregs) :=
  match code[pc]? with
  | some register => if h : register.toNat < nregs then some ⟨register.toNat, h⟩ else none
  | none => none

/-- `READ_PATTERN_SYNTAXCODE`; `syntaxcode_max` is 13. -/
def readPatternSyntaxcode (code : List Byte) (pc : Nat) : Option Nat :=
  match code[pc]? with
  | some syntaxcode => if syntaxcode.toNat < 13 then some syntaxcode.toNat else none
  | none => none

/-- The instruction with an opcode whose operands are at an address. -/
def Instruction.decode (code : List Byte) (opcode pc : Nat) : Instruction :=
  match opcode with
  | 0 => .unused
  | 1 => .exact1 code[pc]?
  | 2 => .exactN (readPatternLength code pc)
  | 3 => .lineStart
  | 4 => .lineEnd
  | 5 => .jump (readPatternOffset code pc)
  | 6 => .onFailureJump (readPatternOffset code pc)
  | 7 => .finalizeJump (readPatternOffset code pc)
  | 8 => .maybeFinalizeJump (readPatternOffset code pc)
  | 9 => .dummyFailureJump (readPatternOffset code pc)
  | 10 => .anyChar
  | 11 => .charSet false (readPatternLength code pc)
  | 12 => .charSet true (readPatternLength code pc)
  | 13 => .startMemory (readPatternRegister code pc)
  | 14 => .stopMemory (readPatternRegister code pc)
  | 15 => .duplicate (readPatternRegister code pc)
  | 16 => .bufferStart
  | 17 => .bufferEnd
  | 18 => .wordChar false
  | 19 => .wordChar true
  | 20 => .wordBound .start
  | 21 => .wordBound .stop
  | 22 => .wordBound .bound
  | 23 => .wordBound .notBound
  | 24 => .syntaxSpec false (readPatternSyntaxcode code pc)
  | 25 => .syntaxSpec true (readPatternSyntaxcode code pc)
  | _ => .bad

/-- The instruction at an address, if the pattern does not end there. -/
def fetch (code : List Byte) (pc : Nat) : Option Instruction :=
  (code[pc]?).map fun opcode => Instruction.decode code opcode.toNat (pc + 1)

/-- How many bytes an instruction has. -/
def Instruction.size : Instruction → Nat
  | .exact1 _ => 2
  | .exactN chars => 2 + (chars.getD []).length
  | .jump _ | .onFailureJump _ | .finalizeJump _ | .maybeFinalizeJump _ | .dummyFailureJump _ => 3
  | .charSet _ set => 2 + (set.getD []).length
  | .startMemory _ | .stopMemory _ | .duplicate _ => 2
  | .syntaxSpec _ _ => 2
  | _ => 1

theorem Instruction.size_pos (instruction : Instruction) : 0 < instruction.size := by
  cases instruction <;> simp only [size] <;> omega

def charSetMemberP (set : List Byte) (ascii : Byte) : Bool :=
  ascii.toNat < set.length * 8 && (set.getD (ascii.toNat / 8) 0).toNat.testBit (ascii.toNat % 8)

/-! ## The matcher -/

/-- A failure point: where to resume in the pattern and in the text. A dummy has neither. -/
abbrev FailurePoint := Option (Nat × Nat)

/-- The variables of `re_match`. -/
structure Config where
  code : List Byte
  patternPc : Nat
  matchPc : Nat
  stack : List FailurePoint
  registerStart : Fin nregs → Option Nat
  registerEnd : Fin nregs → Option Nat

/-- What `re_match` returns. -/
inductive Outcome where
  /-- The end index of the match, and the registers; -1 is the index of a register that is not set. -/
  | matched (index : Nat) (registerStart registerEnd : Fin nregs → Option Nat)
  /-- -1 -/
  | failed
  /-- -2 -/
  | badPattern
  /-- -4 -/
  | overflow
  /-- The stack is popped below its start, the pattern is read behind its end, or the difference of a null pointer is
  taken. -/
  | undefined

/-- What a step leads to. -/
abbrev Step := Runs.Step Config Outcome

/-- The failure points that the stack has room for: `RE_NFAILURES`, which is not doubled within `re_max_failures`. -/
def stackLimit : Nat := 512

/-- `PUSH_FAILURE_POINT`, and going on. -/
def pushFailurePoint (c : Config) (point : FailurePoint) (k : Config → Step) : Step :=
  if c.stack.length = stackLimit then .done .overflow else k { c with stack := point :: c.stack }

/-- `re_match_fail`: the last failure point that is not a dummy. -/
def failureLoop (c : Config) : List FailurePoint → Step
  | [] => .done .failed
  | none :: stack => failureLoop c stack
  | some (patternPc, matchPc) :: stack => .next { c with patternPc, matchPc, stack }

def reMatchFail (c : Config) : Step := failureLoop c c.stack

section

variable (buffer : Buffer) (range : MatchRange)

/-- The address behind a character, on the other side of the gap when the gap begins there. -/
def Buffer.skipGap (address : Nat) : Nat := if address = buffer.gapStart then buffer.gapEnd else address

/-- `READ_MATCH_CHAR`: the character, and the address behind it. -/
def readMatchChar (matchPc : Nat) : Option (Byte × Nat) :=
  if matchPc ≥ range.stop then none
  else some (buffer.translateChar (buffer.text matchPc), buffer.skipGap (matchPc + 1))

/-- An instruction that reads a character, and then its operand. -/
def matchChar {α : Type} (c : Config) (size : Nat) (operand : Option α) (test : α → Byte → Bool) : Step :=
  match readMatchChar buffer range c.matchPc with
  | none => reMatchFail c
  | some (ascii, matchPc) =>
      match operand with
      | none => .done .badPattern
      | some operand =>
          if test operand ascii then .next { c with patternPc := c.patternPc + size, matchPc } else reMatchFail c

/-- The loop for `exact_n`: the address behind the characters. -/
def exactLoop : List Byte → Nat → Option Nat
  | [], matchPc => some matchPc
  | char :: chars, matchPc =>
      match readMatchChar buffer range matchPc with
      | none => none
      | some (ascii, matchPc) => if ascii = char then exactLoop chars matchPc else none

def beqTranslate (scan1 scan2 : Nat) : Nat → Bool
  | 0 => true
  | length + 1 =>
      buffer.translateChar (buffer.text scan1) == buffer.translateChar (buffer.text scan2) &&
        beqTranslate (scan1 + 1) (scan2 + 1) length

/-- `duplicate`, of a register: the address behind the copy. -/
def duplicateEnd (matchPc start stop : Nat) : Option Nat :=
  if stop ≤ start then some matchPc
  else
    let length := stop - start
    let newEnd := matchPc + length
    if newEnd > range.stop then none
    else if matchPc ≤ buffer.gapStart ∧ newEnd > buffer.gapStart then
      let newEnd := newEnd + buffer.gapLength
      if newEnd > range.stop then none
      else
        let length1 := buffer.gapStart - matchPc
        let length2 := length - length1
        if beqTranslate buffer matchPc start length1 && beqTranslate buffer buffer.gapEnd (start + length1) length2 then
          some (buffer.skipGap newEnd)
        else none
    else if start ≤ buffer.gapStart ∧ stop > buffer.gapStart then
      let length1 := buffer.gapStart - start
      let length2 := stop - buffer.gapEnd
      if beqTranslate buffer matchPc start length1 && beqTranslate buffer (matchPc + length1) buffer.gapEnd length2 then
        some (buffer.skipGap newEnd)
      else none
    else if beqTranslate buffer matchPc start length then some (buffer.skipGap newEnd)
    else none

/-- An instruction that looks at the place in the text only. -/
def matchTest (c : Config) (test : Bool) : Step :=
  if test then .next { c with patternPc := c.patternPc + 1 } else reMatchFail c

/-- The address is that of the beginning of the text. -/
def atStart (matchPc : Nat) : Bool := buffer.addressToIndex matchPc == buffer.addressToIndex buffer.textStart

/-- The address is that of the end of the text. -/
def atEnd (matchPc : Nat) : Bool := buffer.addressToIndex matchPc == buffer.addressToIndex buffer.textEnd

def lineStartP (matchPc : Nat) : Bool :=
  atStart buffer matchPc ||
    buffer.translateChar (buffer.text ((if matchPc = buffer.gapEnd then buffer.gapStart else matchPc : Nat) - 1)) == 10

def lineEndP (matchPc : Nat) : Bool :=
  atEnd buffer matchPc || buffer.translateChar (buffer.text matchPc) == 10

/-- The macros that `RE_MATCH_WORD_BOUND` is given. -/
def WordBound.test : WordBound → Bool → Bool → Bool
  | .bound, left, right => left != right
  | .notBound, left, right => left == right
  | .start, left, right => !left && right
  | .stop, left, right => left && !right

/-- `RE_MATCH_WORD_BOUND` -/
def wordBoundP (kind : WordBound) (matchPc : Nat) : Bool :=
  let word (address : Int) := buffer.wordConstituentP (buffer.translateChar (buffer.text address))
  if matchPc = buffer.gapEnd then
    kind.test (buffer.gapStart ≠ buffer.textStart && word (buffer.gapStart - 1))
      (buffer.gapEnd ≠ buffer.textEnd && word buffer.gapEnd)
  else
    kind.test (matchPc ≠ buffer.textStart && word (matchPc - 1)) (matchPc ≠ buffer.textEnd && word matchPc)

/-- What `maybe_finalize_jump` comes to. -/
inductive Finalize where
  | finalize
  | dontFinalize
  /-- The pattern is read behind its end. -/
  | unknown
deriving DecidableEq

/-- The character that follows a loop, when there is only one that can. -/
def followingChar (code : List Byte) (pc : Nat) : Finalize ⊕ Byte :=
  let char (pc : Nat) : Finalize ⊕ Byte :=
    match code[pc]? with
    | some ascii => .inr ascii
    | none => .inl .unknown
  match (code.getD pc 0).toNat with
  | 1 => char (pc + 1)
  | 2 => char (pc + 2)
  | 4 => .inr 10
  | _ => .inl .dontFinalize

/-- What is at the target of the jump is compared with the character. -/
def finalizeTest (code : List Byte) (target : Nat) (ascii : Byte) : Finalize :=
  let char (pc : Nat) : Finalize :=
    match code[pc]? with
    | some char => if ascii ≠ char then .finalize else .dontFinalize
    | none => .unknown
  let set (inverse : Bool) : Finalize :=
    match code[target + 1]? with
    | some length =>
        if target + 2 + length.toNat > code.length then .unknown
        else if charSetMemberP ((code.drop (target + 2)).take length.toNat) ascii = inverse then .finalize
        else .dontFinalize
    | none => .unknown
  match code[target]? with
  | none => .unknown
  | some opcode =>
      match opcode.toNat with
      | 1 => char (target + 1)
      | 2 => char (target + 2)
      | 11 => set false
      | 12 => set true
      | _ => .dontFinalize

/-- Whether the jump before an address, which goes to the target, is to be finalized. -/
def finalizeP (code : List Byte) (pc target : Nat) : Finalize :=
  if pc = code.length then .finalize
  else
    match followingChar code pc with
    | .inl result => result
    | .inr ascii => finalizeTest code target ascii

def reMatchJump (c : Config) (target : Option Nat) : Step :=
  match target with
  | none => .done .badPattern
  | some target => .next { c with patternPc := target }

def reMatchFinalizeJump (c : Config) (target : Option Nat) : Step :=
  match c.stack with
  | [] => .done .undefined
  | _ :: stack => reMatchJump { c with stack } target

/-- The opcode at `pattern_pc` is written over. -/
def Config.rewrite (c : Config) (opcode : Byte) : Config := { c with code := c.code.set c.patternPc opcode }

/-- A step of `re_match` with the instruction at `pattern_pc`. -/
def execute (c : Config) : Instruction → Step
  | .unused => .next { c with patternPc := c.patternPc + 1 }
  | .exact1 char => matchChar buffer range c 2 char fun char ascii => ascii == char
  | .exactN none => .done .badPattern
  | .exactN (some chars) =>
      match exactLoop buffer range chars c.matchPc with
      | some matchPc => .next { c with patternPc := c.patternPc + 2 + chars.length, matchPc }
      | none => reMatchFail c
  | .lineStart => matchTest c (lineStartP buffer c.matchPc)
  | .lineEnd => matchTest c (lineEndP buffer c.matchPc)
  | .jump target => reMatchJump c target
  | .onFailureJump none => .done .badPattern
  | .onFailureJump (some target) =>
      pushFailurePoint c (some (target, c.matchPc)) fun c => .next { c with patternPc := c.patternPc + 3 }
  | .finalizeJump target => reMatchFinalizeJump c target
  | .maybeFinalizeJump none => .done .badPattern
  | .maybeFinalizeJump (some target) =>
      match finalizeP c.code (c.patternPc + 3) target with
      | .finalize => reMatchFinalizeJump (c.rewrite 7) (some target)
      | .dontFinalize => reMatchJump (c.rewrite 5) (some target)
      | .unknown => .done .undefined
  | .dummyFailureJump target => pushFailurePoint c none fun c => reMatchJump c target
  | .anyChar => matchChar buffer range c 1 (some ()) fun _ ascii => ascii != 10
  | .charSet inverse set =>
      matchChar buffer range c (2 + (set.getD []).length) set fun set ascii => charSetMemberP set ascii != inverse
  | .startMemory none | .stopMemory none | .duplicate none => .done .badPattern
  | .startMemory (some register) =>
      .next { c with
        patternPc := c.patternPc + 2
        registerStart := Function.update c.registerStart register (some c.matchPc) }
  | .stopMemory (some register) =>
      .next { c with
        patternPc := c.patternPc + 2
        registerEnd := Function.update c.registerEnd register
          (some (if c.matchPc = buffer.gapEnd then buffer.gapStart else c.matchPc)) }
  | .duplicate (some register) =>
      match c.registerStart register, c.registerEnd register with
      | some start, some stop =>
          match duplicateEnd buffer range c.matchPc start stop with
          | some matchPc => .next { c with patternPc := c.patternPc + 2, matchPc }
          | none => reMatchFail c
      | none, some _ => .done .undefined
      | _, none => .next { c with patternPc := c.patternPc + 2 }
  | .bufferStart => matchTest c (atStart buffer c.matchPc)
  | .bufferEnd => matchTest c (atEnd buffer c.matchPc)
  | .wordChar inverse =>
      matchChar buffer range c 1 (some ()) fun _ ascii => buffer.wordConstituentP ascii != inverse
  | .wordBound kind => matchTest c (wordBoundP buffer kind c.matchPc)
  | .syntaxSpec inverse code =>
      matchChar buffer range c 2 code fun code ascii => buffer.syntaxConstituentP code ascii != inverse
  | .bad => .done .badPattern

/-- The end of the pattern: the match is successful. -/
def succeed (c : Config) : Outcome :=
  .matched (buffer.addressToIndex c.matchPc)
    (fun i => (Function.update c.registerStart 0 (some range.start) i).map buffer.addressToIndex)
    (fun i => (Function.update c.registerEnd 0 (some c.matchPc) i).map buffer.addressToIndex)

/-- `re_match_loop` -/
def step (c : Config) : Step :=
  match fetch c.code c.patternPc with
  | none => .done (succeed buffer range c)
  | some instruction => execute buffer range c instruction

/-- The variables when `re_match` begins. -/
def initial (code : List Byte) : Config := ⟨code, 0, range.start, [], fun _ => none, fun _ => none⟩

/-- `re_match`, in so many steps. -/
def reMatch (fuel : Nat) (code : List Byte) : Option Outcome :=
  Runs.run (step buffer range) fuel (initial range code)

/-! ## What a step can do -/

/-- The matcher goes on in the text, by some characters or a copy of a register; or stays where it is, by none. -/
def Advances (matchPc matchPc' : Nat) : Prop :=
  (∃ chars, exactLoop buffer range chars matchPc = some matchPc') ∨
    ∃ start stop, duplicateEnd buffer range matchPc start stop = some matchPc'

/-- The instructions that match something of the text, or its place, or fail. -/
def Instruction.matching : Instruction → Bool
  | .unused | .exact1 _ | .exactN _ | .lineStart | .lineEnd | .anyChar | .charSet _ _ | .duplicate _ | .bufferStart
  | .bufferEnd | .wordChar _ | .wordBound _ | .syntaxSpec _ _ => true
  | _ => false

/-- Where an instruction leads to when it does not end the match. -/
inductive Next (c : Config) : Instruction → Config → Prop
  | fail {instruction : Instruction} {c' : Config} : instruction.matching = true → reMatchFail c = .next c' →
      Next c instruction c'
  | advance {instruction : Instruction} (matchPc : Nat) : instruction.matching = true →
      Advances buffer range c.matchPc matchPc →
        Next c instruction { c with patternPc := c.patternPc + instruction.size, matchPc }
  | jump (target : Nat) : Next c (.jump (some target)) { c with patternPc := target }
  | push (target : Nat) : c.stack.length ≠ stackLimit →
      Next c (.onFailureJump (some target))
        { c with patternPc := c.patternPc + 3, stack := some (target, c.matchPc) :: c.stack }
  | pushDummy (target : Nat) : c.stack.length ≠ stackLimit →
      Next c (.dummyFailureJump (some target)) { c with patternPc := target, stack := none :: c.stack }
  | finalize (target : Nat) {point : FailurePoint} {stack : List FailurePoint} : c.stack = point :: stack →
      Next c (.finalizeJump (some target)) { c with patternPc := target, stack }
  | maybeFinalize (target : Nat) {point : FailurePoint} {stack : List FailurePoint} : c.stack = point :: stack →
      finalizeP c.code (c.patternPc + 3) target = .finalize →
        Next c (.maybeFinalizeJump (some target)) { c.rewrite 7 with patternPc := target, stack }
  | dontFinalize (target : Nat) : finalizeP c.code (c.patternPc + 3) target = .dontFinalize →
      Next c (.maybeFinalizeJump (some target)) { c.rewrite 5 with patternPc := target }
  | start (register : Fin nregs) :
      Next c (.startMemory (some register))
        { c with
          patternPc := c.patternPc + 2
          registerStart := Function.update c.registerStart register (some c.matchPc) }
  | stop (register : Fin nregs) :
      Next c (.stopMemory (some register))
        { c with
          patternPc := c.patternPc + 2
          registerEnd := Function.update c.registerEnd register
            (some (if c.matchPc = buffer.gapEnd then buffer.gapStart else c.matchPc)) }

variable {buffer range}

theorem Advances.refl (matchPc : Nat) : Advances buffer range matchPc matchPc := .inl ⟨[], rfl⟩

theorem Advances.readMatchChar {matchPc matchPc' : Nat} {ascii : Byte}
    (h : readMatchChar buffer range matchPc = some (ascii, matchPc')) : Advances buffer range matchPc matchPc' :=
  .inl ⟨[ascii], by simp only [exactLoop, h, if_pos]⟩

variable {c c' : Config} {instruction : Instruction}

theorem matchChar_next {α : Type} (hmatching : instruction.matching = true)
    {operand : Option α} {test : α → Byte → Bool} (h : matchChar buffer range c instruction.size operand test = .next c') :
    Next buffer range c instruction c' := by
  unfold matchChar at h
  split at h
  · exact .fail hmatching h
  · next hread =>
      split at h
      · cases h
      · split at h
        · cases h
          exact .advance _ hmatching (.readMatchChar hread)
        · exact .fail hmatching h

theorem matchTest_next (hmatching : instruction.matching = true) (hsize : instruction.size = 1) {test : Bool}
    (h : matchTest c test = .next c') : Next buffer range c instruction c' := by
  unfold matchTest at h
  split at h
  · cases h
    exact hsize ▸ .advance c.matchPc hmatching (.refl _)
  · exact .fail hmatching h

theorem pushFailurePoint_next {point : FailurePoint} {k : Config → Step}
    (h : pushFailurePoint c point k = .next c') :
    c.stack.length ≠ stackLimit ∧ k { c with stack := point :: c.stack } = .next c' := by
  unfold pushFailurePoint at h
  split at h
  · cases h
  · next hroom => exact ⟨hroom, h⟩

theorem reMatchJump_next {target : Option Nat} (h : reMatchJump c target = .next c') :
    ∃ patternPc, target = some patternPc ∧ c' = { c with patternPc } := by
  cases target with
  | none => cases h
  | some patternPc =>
      cases h
      exact ⟨patternPc, rfl, rfl⟩

theorem reMatchFinalizeJump_next {target : Option Nat} (h : reMatchFinalizeJump c target = .next c') :
    ∃ patternPc point stack, target = some patternPc ∧ c.stack = point :: stack ∧
      c' = { c with patternPc, stack } := by
  unfold reMatchFinalizeJump at h
  split at h
  · cases h
  · next point stack hstack =>
      obtain ⟨patternPc, htarget, hc'⟩ := reMatchJump_next h
      exact ⟨patternPc, point, stack, htarget, hstack, hc'⟩

theorem execute_next (h : execute buffer range c instruction = .next c') :
    Next buffer range c instruction c' := by
  cases instruction with
  | unused =>
      cases h
      exact .advance c.matchPc rfl (.refl _)
  | exact1 char | charSet inverse set | syntaxSpec inverse code => exact matchChar_next rfl h
  | exactN chars =>
      cases chars with
      | none => cases h
      | some chars =>
          simp only [execute] at h
          split at h
          · next matchPc hloop =>
              cases h
              exact Nat.add_assoc .. ▸ .advance matchPc rfl (.inl ⟨chars, hloop⟩)
          · exact .fail rfl h
  | lineStart | lineEnd | bufferStart | bufferEnd | wordBound => exact matchTest_next rfl rfl h
  | jump target =>
      obtain ⟨patternPc, rfl, rfl⟩ := reMatchJump_next h
      exact .jump patternPc
  | onFailureJump target =>
      cases target with
      | none => cases h
      | some target =>
          simp only [execute] at h
          obtain ⟨hroom, hnext⟩ := pushFailurePoint_next h
          cases hnext
          exact .push target hroom
  | finalizeJump target =>
      obtain ⟨patternPc, point, stack, rfl, hstack, rfl⟩ := reMatchFinalizeJump_next h
      exact .finalize patternPc hstack
  | maybeFinalizeJump target =>
      cases target with
      | none => cases h
      | some target =>
          simp only [execute] at h
          split at h
          · next hfinalize =>
              obtain ⟨patternPc, point, stack, htarget, hstack, rfl⟩ := reMatchFinalizeJump_next h
              cases htarget
              exact .maybeFinalize target hstack hfinalize
          · next hfinalize =>
              obtain ⟨patternPc, htarget, rfl⟩ := reMatchJump_next h
              cases htarget
              exact .dontFinalize target hfinalize
          · cases h
  | dummyFailureJump target =>
      simp only [execute] at h
      obtain ⟨hroom, hnext⟩ := pushFailurePoint_next h
      obtain ⟨patternPc, rfl, rfl⟩ := reMatchJump_next hnext
      exact .pushDummy patternPc hroom
  | anyChar | wordChar inverse =>
      simp only [execute] at h
      exact matchChar_next rfl h
  | startMemory register =>
      cases register with
      | none => cases h
      | some register =>
          cases h
          exact .start register
  | stopMemory register =>
      cases register with
      | none => cases h
      | some register =>
          cases h
          exact .stop register
  | duplicate register =>
      cases register with
      | none => cases h
      | some register =>
          simp only [execute] at h
          split at h
          · split at h
            · next hcopy =>
                cases h
                exact .advance _ rfl (.inr ⟨_, _, hcopy⟩)
            · exact .fail rfl h
          · cases h
          · cases h
            exact .advance c.matchPc rfl (.refl _)
  | bad => cases h

theorem step_next (h : step buffer range c = .next c') :
    ∃ instruction, fetch c.code c.patternPc = some instruction ∧ Next buffer range c instruction c' := by
  unfold step at h
  split at h
  · cases h
  · next instruction hfetch => exact ⟨instruction, hfetch, execute_next h⟩

theorem failureLoop_next {stack : List FailurePoint} (h : failureLoop c stack = .next c') :
    ∃ patternPc matchPc dummies stack', stack = dummies ++ some (patternPc, matchPc) :: stack' ∧
      (∀ point ∈ dummies, point = none) ∧ c' = { c with patternPc, matchPc, stack := stack' } := by
  induction stack with
  | nil => cases h
  | cons point stack ih =>
      rcases point with _ | ⟨patternPc, matchPc⟩
      · obtain ⟨patternPc, matchPc, dummies, stack', hstack, hdummies, hc'⟩ := ih h
        exact ⟨patternPc, matchPc, none :: dummies, stack', by rw [hstack]; rfl, by simpa using hdummies, hc'⟩
      · cases h
        exact ⟨patternPc, matchPc, [], stack, rfl, by simp, rfl⟩

/-! ## The end of a match -/

/-- What ends the match other than by success. -/
def Fails (s : Step) : Prop := ∀ index registerStart registerEnd, s ≠ .done (.matched index registerStart registerEnd)

theorem failureLoop_fails (c : Config) (stack : List FailurePoint) : Fails (failureLoop c stack) := by
  intro index registerStart registerEnd h
  induction stack with
  | nil => cases h
  | cons point stack ih =>
      rcases point with _ | ⟨patternPc, matchPc⟩
      · exact ih h
      · cases h

theorem matchChar_fails {α : Type} (c : Config) (size : Nat) (operand : Option α) (test : α → Byte → Bool) :
    Fails (matchChar buffer range c size operand test) := by
  intro index registerStart registerEnd h
  unfold matchChar at h
  split at h
  · exact failureLoop_fails c c.stack _ _ _ h
  · split at h
    · cases h
    · split at h
      · cases h
      · exact failureLoop_fails c c.stack _ _ _ h

theorem matchTest_fails (c : Config) (test : Bool) : Fails (matchTest c test) := by
  intro index registerStart registerEnd h
  unfold matchTest at h
  split at h
  · cases h
  · exact failureLoop_fails c c.stack _ _ _ h

theorem pushFailurePoint_fails (c : Config) (point : FailurePoint) {k : Config → Step} (hk : ∀ c, Fails (k c)) :
    Fails (pushFailurePoint c point k) := by
  intro index registerStart registerEnd h
  unfold pushFailurePoint at h
  split at h
  · cases h
  · exact hk _ _ _ _ h

theorem reMatchJump_fails (c : Config) (target : Option Nat) : Fails (reMatchJump c target) := by
  intro index registerStart registerEnd h
  cases target with
  | none => cases h
  | some target => cases h

theorem reMatchFinalizeJump_fails (c : Config) (target : Option Nat) : Fails (reMatchFinalizeJump c target) := by
  intro index registerStart registerEnd h
  unfold reMatchFinalizeJump at h
  split at h
  · cases h
  · exact reMatchJump_fails _ target _ _ _ h

theorem execute_fails (c : Config) (instruction : Instruction) : Fails (execute buffer range c instruction) := by
  intro index registerStart registerEnd h
  cases instruction with
  | unused | bad => cases h
  | exact1 char => exact matchChar_fails c 2 char _ _ _ _ h
  | exactN chars =>
      cases chars with
      | none => cases h
      | some chars =>
          simp only [execute] at h
          split at h
          · cases h
          · exact failureLoop_fails c c.stack _ _ _ h
  | lineStart | lineEnd | bufferStart | bufferEnd | wordBound => exact matchTest_fails c _ _ _ _ h
  | jump target => exact reMatchJump_fails c target _ _ _ h
  | onFailureJump target =>
      cases target with
      | none => cases h
      | some target =>
          simp only [execute] at h
          refine pushFailurePoint_fails c _ ?_ _ _ _ h
          intro c index registerStart registerEnd h
          cases h
  | finalizeJump target => exact reMatchFinalizeJump_fails c target _ _ _ h
  | maybeFinalizeJump target =>
      cases target with
      | none => cases h
      | some target =>
          simp only [execute] at h
          split at h
          · exact reMatchFinalizeJump_fails _ _ _ _ _ h
          · exact reMatchJump_fails _ _ _ _ _ h
          · cases h
  | dummyFailureJump target =>
      exact pushFailurePoint_fails c none (fun c => reMatchJump_fails c target) _ _ _ h
  | anyChar | wordChar inverse =>
      simp only [execute] at h
      exact matchChar_fails c 1 (some ()) _ _ _ _ h
  | charSet inverse set => exact matchChar_fails c _ set _ _ _ _ h
  | startMemory register | stopMemory register =>
      cases register with
      | none | some register => cases h
  | duplicate register =>
      cases register with
      | none => cases h
      | some register =>
          simp only [execute] at h
          split at h
          · split at h
            · cases h
            · exact failureLoop_fails c c.stack _ _ _ h
          · cases h
          · cases h
  | syntaxSpec inverse code => exact matchChar_fails c 2 code _ _ _ _ h

theorem succeed_of_step {index : Nat} {registerStart registerEnd : Fin nregs → Option Nat}
    (h : step buffer range c = .done (.matched index registerStart registerEnd)) :
    fetch c.code c.patternPc = none ∧ succeed buffer range c = .matched index registerStart registerEnd := by
  unfold step at h
  split at h
  · next hfetch => exact ⟨hfetch, Runs.Step.done.inj h⟩
  · next instruction _ => exact absurd h (execute_fails c instruction _ _ _)

end

end MitScheme.Regex
