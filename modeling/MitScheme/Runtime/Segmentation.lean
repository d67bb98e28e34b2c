import MitScheme.Lib.Slices

/-!
# Grapheme clusters and words

The two machines of `ustring.scm` that find the breaks of a string. A state is given what follows, and passes on
the next state and whether there is a break before it. The codes of the names are the names here, and what the
UCD says of a character is a parameter.
-/

namespace MitScheme.Segmentation

section

variable {α : Type} [DecidableEq α]

def makeSelector (names : List α) (code : α) : Bool := code ∈ names

/-- `make-!selector` -/
def makeNotSelector (names : List α) (code : α) : Bool := code ∉ names

end

/-! ## Grapheme clusters -/

/-- `gcb-names` -/
inductive Gcb where
  | control
  | carriageReturn
  | emojiBase
  | emojiBaseGaz
  | emojiModifier
  | extend
  | glueAfterZwj
  | hstL
  | linefeed
  | hstLV
  | hstLVT
  | prepend
  | regionalIndicator
  | spacingMark
  | hstT
  | hstV
  | other
  | zwj
  deriving DecidableEq

variable {R : Type}

def simpleState (isBreak : Gcb → Bool) (gcb : Gcb) (k : Gcb → Bool → R) : R := k gcb (isBreak gcb)

def stateControl : Gcb → (Gcb → Bool → R) → R := simpleState (makeNotSelector [])

def stateEmojiBase (gcb : Gcb) (k : Gcb → Bool → R) : R :=
  if gcb = .extend then k .emojiBase false
  else k gcb (makeNotSelector [.emojiModifier, .extend, .spacingMark, .zwj] gcb)

def stateExtend : Gcb → (Gcb → Bool → R) → R := simpleState (makeNotSelector [.extend, .spacingMark, .zwj])

def stateHstV : Gcb → (Gcb → Bool → R) → R :=
  simpleState (makeNotSelector [.hstT, .hstV, .extend, .spacingMark, .zwj])

def stateHstT : Gcb → (Gcb → Bool → R) → R := simpleState (makeNotSelector [.hstT, .extend, .spacingMark, .zwj])

def gcbStates : Gcb → Gcb → (Gcb → Bool → R) → R
  | .control => stateControl
  | .carriageReturn => simpleState (makeNotSelector [.linefeed])
  | .emojiBase => stateEmojiBase
  | .emojiBaseGaz => stateEmojiBase
  | .emojiModifier => stateExtend
  | .extend => stateExtend
  | .glueAfterZwj => stateExtend
  | .hstL => simpleState (makeNotSelector [.hstL, .hstLV, .hstLVT, .hstV, .extend, .spacingMark, .zwj])
  | .linefeed => stateControl
  | .hstLV => stateHstV
  | .hstLVT => stateHstT
  | .prepend => simpleState (makeSelector [.control, .carriageReturn, .linefeed])
  | .regionalIndicator => fun gcb k =>
      let gcb := if gcb = .regionalIndicator then .extend else gcb
      k gcb (makeNotSelector [.extend, .spacingMark, .zwj] gcb)
  | .spacingMark => stateExtend
  | .hstT => stateHstT
  | .hstV => stateHstV
  | .other => stateExtend
  | .zwj => simpleState (makeNotSelector [.emojiBaseGaz, .glueAfterZwj, .extend, .spacingMark, .zwj])

section

variable {α : Type} (n : Nat) (getGcb : Nat → Gcb) (break' : Nat → α → α)

def transition (gcb : Gcb) (i : Nat) (ctx : α) : α :=
  let i' := i + 1
  if i' < n then
    gcbStates gcb (getGcb i') fun gcb' isBreak => transition gcb' i' (if isBreak then break' i' ctx else ctx)
  else break' n ctx
termination_by n - i

end

variable (ucdGcbValue : Nat → Gcb)

def findGraphemeClusterBreaks {α : Type} (string : List Nat) (initialCtx : α) (break' : Nat → α → α) : α :=
  let n := string.length
  let getGcb i := ucdGcbValue (string.getD i 0)
  if n > 0 then transition n getGcb break' (getGcb 0) 0 (break' 0 initialCtx)
  else initialCtx

def graphemeClusterBreaks (string : List Nat) : List Nat :=
  (findGraphemeClusterBreaks ucdGcbValue string [] List.cons).reverse

/-! ## Word breaks -/

/-- `wb-names` -/
inductive Wb where
  | carriageReturn
  | doubleQuote
  | emojiBase
  | emojiBaseGaz
  | emojiModifier
  | extendNumLet
  | extend
  | format
  | glueAfterZwj
  | hebrewLetter
  | katakana
  | letter
  | linefeed
  | midNumLet
  | midLetter
  | midNumber
  | newline
  | numeric
  | regionalIndicator
  | singleQuote
  | other
  | zwj
  deriving DecidableEq

def selectBreaker : Wb → Bool := makeSelector [.carriageReturn, .linefeed, .newline]

def selectExtender : Wb → Bool := makeSelector [.extend, .format, .zwj]

def selectZwj : Wb → Bool := makeSelector [.zwj]

/-- A state that does not look ahead. -/
def noLookAhead (names : List Wb) (wb1 : Wb) (_wb2 : Option Wb) (k1 : Wb → Bool → R) (_k2 : Unit → R) : R :=
  k1 wb1 (makeNotSelector names wb1)

def stateHebrewLetter (wb1 : Wb) (wb2 : Option Wb) (k1 : Wb → Bool → R) (k2 : Unit → R) : R :=
  if wb2.any fun wb2 =>
      (makeSelector [.midNumLet, .midLetter, .singleQuote] wb1 && makeSelector [.hebrewLetter, .letter] wb2)
        || (makeSelector [.doubleQuote] wb1 && makeSelector [.hebrewLetter] wb2)
  then k2 ()
  else k1 wb1 (makeNotSelector [.extendNumLet, .hebrewLetter, .letter, .numeric, .singleQuote] wb1)

def stateLetter (wb1 : Wb) (wb2 : Option Wb) (k1 : Wb → Bool → R) (k2 : Unit → R) : R :=
  if wb2.any fun wb2 =>
      makeSelector [.midNumLet, .midLetter, .singleQuote] wb1 && makeSelector [.hebrewLetter, .letter] wb2
  then k2 ()
  else k1 wb1 (makeNotSelector [.extendNumLet, .hebrewLetter, .letter, .numeric] wb1)

def stateNumeric (wb1 : Wb) (wb2 : Option Wb) (k1 : Wb → Bool → R) (k2 : Unit → R) : R :=
  if wb2.any fun wb2 => makeSelector [.midNumLet, .midNumber, .singleQuote] wb1 && makeSelector [.numeric] wb2
  then k2 ()
  else k1 wb1 (makeNotSelector [.extendNumLet, .hebrewLetter, .letter, .numeric] wb1)

def wbStates : Wb → Wb → Option Wb → (Wb → Bool → R) → (Unit → R) → R
  | .carriageReturn => noLookAhead [.linefeed]
  | .emojiBase => noLookAhead [.emojiModifier]
  | .emojiBaseGaz => noLookAhead [.emojiModifier]
  | .katakana => noLookAhead [.extendNumLet, .katakana]
  | .zwj => noLookAhead [.emojiBaseGaz, .glueAfterZwj]
  | .extendNumLet => noLookAhead [.extendNumLet, .hebrewLetter, .katakana, .letter, .numeric]
  | .hebrewLetter => stateHebrewLetter
  | .letter => stateLetter
  | .numeric => stateNumeric
  | .regionalIndicator => fun wb1 _ k1 _ =>
      if makeSelector [.regionalIndicator] wb1 then k1 .extend false else k1 wb1 true
  | _ => fun wb1 _ k1 _ => k1 wb1 true

section

variable {α : Type} (n : Nat) (getWb : Nat → Wb) (break' : Nat → α → α)

/-- The loop `find-i2`: the first character that is no extender. -/
def findI2 (i2 : Nat) : Nat :=
  if i2 < n then
    if selectExtender (getWb i2) then findI2 (i2 + 1) else i2
  else i2
termination_by n - i2

theorem le_findI2 (i2 : Nat) : i2 ≤ findI2 n getWb i2 := by
  induction i2 using findI2.induct n getWb with
  | case1 i2 hlt hextender ih =>
      rw [findI2, if_pos hlt, if_pos hextender]
      exact Nat.le_of_succ_le ih
  | case2 i2 hlt hextender => exact Nat.le_of_eq (by rw [findI2, if_pos hlt, if_neg hextender])
  | case3 i2 hlt => exact Nat.le_of_eq (by rw [findI2, if_neg hlt])

/-- `k2-none`, which is an error. -/
def k2None (_ : Unit) : Option α := none

mutual

def t1 (wb0 : Wb) (i0 : Nat) (ctx : α) : Option α :=
  if selectBreaker wb0 then t1Breaker wb0 i0 ctx else t1NotBreaker wb0 i0 ctx
termination_by (n - i0, 1)

def t1Breaker (wb0 : Wb) (i0 : Nat) (ctx : α) : Option α :=
  let i1 := i0 + 1
  if i1 < n then
    let wb1 := getWb i1
    wbStates wb0 wb1 none (fun wb1' isBreak => t1 wb1' i1 (if isBreak then break' i1 ctx else ctx)) k2None
  else some ctx
termination_by (n - i0, 0)

def t1NotBreaker (wb0 : Wb) (i0 : Nat) (ctx : α) : Option α :=
  let i1 := i0 + 1
  if i1 < n then
    let wb1 := getWb i1
    if selectExtender wb1 then t1NotBreaker (if selectZwj wb0 then wb1 else wb0) i1 ctx
    else if selectBreaker wb1 then t1Breaker wb1 i1 (break' i1 ctx)
    else t2 wb0 wb1 i1 ctx
  else some ctx
termination_by (n - i0, 0)

def t2 (wb0 wb1 : Wb) (i1 : Nat) (ctx : α) : Option α :=
  let i2 := findI2 n getWb (i1 + 1)
  if i2 < n then
    let wb2 := getWb i2
    wbStates wb0 wb1 (some wb2) (fun wb1' isBreak => t2 wb1' wb2 i2 (if isBreak then break' i1 ctx else ctx))
      fun _ => t1 wb2 i2 ctx
  else wbStates wb0 wb1 none (fun _ isBreak => some (if isBreak then break' i1 ctx else ctx)) k2None
termination_by (n - i1, 0)
decreasing_by
  all_goals
    have hle := le_findI2 n getWb (i1 + 1)
    apply Prod.Lex.left
    omega

end

end

variable (ucdWbValue : Nat → Wb)

def findWordBreaks {α : Type} (string : List Nat) (initialCtx : α) (break' : Nat → α → α) : Option α :=
  let n := string.length
  let getWb i := ucdWbValue (string.getD i 0)
  if 0 < n then (t1 n getWb break' (getWb 0) 0 (break' 0 initialCtx)).map (break' n)
  else some initialCtx

def stringWordBreaks (string : List Nat) : Option (List Nat) :=
  (findWordBreaks ucdWbValue string [] List.cons).map List.reverse

end MitScheme.Segmentation
