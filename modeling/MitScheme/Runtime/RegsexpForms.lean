import MitScheme.Runtime.ChrsetProof
import MitScheme.Runtime.Regsexp

/-!
# Forms that match one character

The rules of `regsexp.scm` for single characters, and `re-pattern->regsexp`, which translates the syntax of regular
expressions. A form and its negation are made in one of four ways: by a `not` in an expression, by another instruction, by
another head of the form, and by a character in front of the others.
-/

namespace MitScheme.RegularSexpression

open Chrset List Option

/-- What `char-matching` is given: a procedure, or `(not procedure)`. -/
inductive CharExpression where
  | procedure (predicate : Char → Bool)
  | not (predicate : Char → Bool)

/-- `char-syntax-codes`, by their first characters. -/
def charSyntaxCodes : List Char := " .w_()'\"$\\/<>".toList

/-- The codes that the rules for the legacy syntax accept. -/
abbrev LegacyCode := { code : Char // code = '-' ∨ code ∈ charSyntaxCodes }

/-- The forms that match one character. -/
inductive CharForm where
  | charMatching (expression : CharExpression)
  | charSet (items : List CplElement)
  | inverseCharSet (items : List CplElement)
  | legacyCharSyntax (code : LegacyCode)
  | inverseLegacyCharSyntax (code : LegacyCode)

section

-- tables of characters: the char-sets with names, and the entries of the standard syntax table
variable (nameToCharSet : CharSetName → CharSet) (entries : Nat → Nat)

def charWhitespace (char : Char) : Bool := charInSet char.toNat (nameToCharSet .whitespace)

/-- `syntax-code-predicate`, with the standard table. -/
def syntaxCodePredicate (code char : Char) : Bool :=
  char.toNat < 0x100 && charSyntaxCodes[entries char.toNat &&& 0x0F]? == some code

/-- The predicate in the rules for `legacy-char-syntax` and `inverse-legacy-char-syntax`. -/
def legacyPredicate (code : LegacyCode) : Char → Bool :=
  if code.val = '-' ∨ code.val = ' ' then charWhitespace nameToCharSet else syntaxCodePredicate entries code.val

def negate (predicate : Char → Bool) (object : Char) : Bool := !predicate object

def charSetPredicate (charSet : CharSet) (char : Char) : Bool := charInSet char.toNat charSet

/-- What the rules pass to `insn:char-matching`. -/
def CharForm.predicate : CharForm → Char → Bool
  | .charMatching (.procedure predicate) => predicate
  | .charMatching (.not predicate) => predicate
  | .charSet items => charSetPredicate (charSetStar nameToCharSet items)
  | .inverseCharSet items => negate (charSetPredicate (charSetStar nameToCharSet items))
  | .legacyCharSyntax code => legacyPredicate nameToCharSet entries code
  | .inverseLegacyCharSyntax code => negate (legacyPredicate nameToCharSet entries code)

/-- The form matches a string of one character, from its start on. -/
def CharForm.Matches (form : CharForm) (char : Char) : Prop :=
  topLevelMatch (insnCharMatching (stringPositions [char] 0 1) (form.predicate nameToCharSet entries)
    fun position (groups : Groups Nat Nat) _ state => (.found position groups.ended.reverse, state)) 0 () =
      (.found 1 [], ())

end

/-! ## Regular-expression patterns -/

/-- The forms that `re-pattern->regsexp` makes. -/
inductive PatternForm where
  | char (char : Char)
  | string (string : List Char)
  | anyChar
  | lineStart
  | lineEnd
  | stringStart
  | stringEnd
  | wordStart
  | wordEnd
  | wordBound
  | notWordBound
  /-- `(char-set whitespace)` or `(inverse-char-set whitespace)` -/
  | whitespace (inverse : Bool)
  | charSet (inverse : Bool) (ranges : List Range)
  | legacyCharSyntax (inverse : Bool) (code : Char)
  | star (form : PatternForm)
  | plus (form : PatternForm)
  | optional (form : PatternForm)
  | alt (forms : List PatternForm)
  | seq (forms : List PatternForm)
  | group (number : Nat) (form : PatternForm)

/-- The loop of `re-char-pattern->code-points`. -/
def codePointsLoop : List Char → List Range → List Range
  | [], scalarValues => scalarValues
  | first :: '-' :: last :: pattern, scalarValues =>
      codePointsLoop pattern (.pair first.toNat (last.toNat + 1) :: scalarValues)
  | char :: pattern, scalarValues => codePointsLoop pattern (.codePoint char.toNat :: scalarValues)

/-- `re-char-pattern->code-points` -/
def reCharPatternToCodePoints : List Char → List Range × Bool
  | '^' :: pattern => (codePointsLoop pattern [], true)
  | pattern => (codePointsLoop pattern [], false)

/-- The order in which the operands of a call are evaluated, which the language leaves open. -/
inductive Order where
  | leftToRight
  | rightToLeft
deriving DecidableEq

/-- `next-is?`, which fails at the end of the pattern. -/
def nextIs (char : Char) : List Char → Option (Bool × List Char)
  | [] => none
  | next :: pattern => if next = char then some (true, pattern) else some (false, next :: pattern)

/-- The first characters of a bracket expression in `parse-char-set`, in the order of `append`. -/
def charSetStart (order : Order) (pattern : List Char) : Option (List Char × List Char) := do
  let caretThenBracket := order = .leftToRight
  let (first, pattern) ← nextIs (if caretThenBracket then '^' else ']') pattern
  let (second, pattern) ← nextIs (if caretThenBracket then ']' else '^') pattern
  let (caret, bracket) := if caretThenBracket then (first, second) else (second, first)
  some ((if caret then ['^'] else []) ++ (if bracket then [']'] else []), pattern)

/-- The loop of `parse-char-set`, up to the closing bracket. -/
def charSetLoop : List Char → List Char → Option (List Char × List Char)
  | _, [] => none
  | chars, char :: pattern => if char = ']' then some (chars, pattern) else charSetLoop (char :: chars) pattern

def parseCharSet (order : Order) (pattern : List Char) : Option (PatternForm × List Char) := do
  let (chars, pattern) ← charSetStart order pattern
  let (chars, pattern) ← charSetLoop chars pattern
  let (ranges, invert) := reCharPatternToCodePoints chars.reverse
  some (.charSet invert (normalizeRanges ranges), pattern)

variable {char : Char} {pattern rest : List Char}

theorem nextIs_length {found : Bool} (h : nextIs char pattern = some (found, rest)) :
    rest.length ≤ pattern.length := by
  cases pattern with
  | nil => cases h
  | cons next pattern =>
      rw [nextIs] at h
      split at h
      · cases h
        exact Nat.le_succ _
      · cases h
        exact le_rfl

theorem charSetLoop_length {chars chars' : List Char} (h : charSetLoop chars pattern = some (chars', rest)) :
    rest.length < pattern.length := by
  induction pattern generalizing chars with
  | nil => cases h
  | cons char pattern ih =>
      rw [charSetLoop] at h
      split at h
      · cases h
        exact Nat.lt_succ_self _
      · exact (ih h).trans (Nat.lt_succ_self _)

theorem parseCharSet_length {order : Order} {form : PatternForm}
    (h : parseCharSet order pattern = some (form, rest)) : rest.length < pattern.length := by
  simp only [parseCharSet, charSetStart, bind_eq_bind, bind_eq_some_iff] at h
  obtain ⟨⟨chars, pattern'⟩, ⟨⟨first, pattern1⟩, h1, ⟨second, pattern2⟩, h2, h3⟩, ⟨chars', pattern3⟩, h4, h5⟩ := h
  cases h3
  cases h5
  exact lt_of_lt_of_le (charSetLoop_length h4) ((nextIs_length h2).trans (nextIs_length h1))

/-- The variables of `re-pattern->regsexp`, apart from the index. -/
structure PatternState where
  thisAlt : List PatternForm
  prevAlts : List PatternForm
  groupNumber : Nat
  pendingGroups : List (Nat × List PatternForm × List PatternForm)

/-- `optimize-alt`, which joins characters to strings. -/
def optimizeAlt : List PatternForm → Option (List Char) → List PatternForm
  | [], none => []
  | [], some builder => [.string builder]
  | .char char :: exprs, builder => optimizeAlt exprs (some (builder.getD [] ++ [char]))
  | expr :: exprs, some builder => .string builder :: expr :: optimizeAlt exprs none
  | expr :: exprs, none => expr :: optimizeAlt exprs none

def PatternState.getAlt (state : PatternState) : PatternForm :=
  match optimizeAlt state.thisAlt.reverse none with
  | [expr] => expr
  | exprs => .seq exprs

def PatternState.getExpr (state : PatternState) : PatternForm :=
  if state.prevAlts.isEmpty then state.getAlt else .alt (state.getAlt :: state.prevAlts).reverse

/-- `output-expr`, up to the dispatch. -/
def PatternState.outputExpr (state : PatternState) (expr : PatternForm) : PatternState :=
  { state with thisAlt := expr :: state.thisAlt }

/-- `replace-last-expr`, up to the dispatch. -/
def PatternState.replaceLastExpr (state : PatternState) (transform : PatternForm → PatternForm) : Option PatternState :=
  match state.thisAlt with
  | [] => none
  | expr :: exprs => some { state with thisAlt := transform expr :: exprs }

/-- `start-group`, up to the dispatch. -/
def PatternState.startGroup (state : PatternState) : PatternState :=
  { thisAlt := [], prevAlts := [], groupNumber := state.groupNumber + 1
    pendingGroups := (state.groupNumber + 1, state.thisAlt, state.prevAlts) :: state.pendingGroups }

/-- `end-group`, up to the dispatch. -/
def PatternState.endGroup (state : PatternState) : Option PatternState :=
  match state.pendingGroups with
  | [] => none
  | (number, thisAlt, prevAlts) :: pendingGroups =>
      some { state with thisAlt := .group number state.getExpr :: thisAlt, prevAlts, pendingGroups }

/-- `push-alt`, up to the dispatch. -/
def PatternState.pushAlt (state : PatternState) : PatternState :=
  { state with prevAlts := state.getAlt :: state.prevAlts, thisAlt := [] }

/-- The forms of the legacy syntax, whose code is the next character. -/
def outputLegacyCode (inverse : Bool) (pattern : List Char) (state : PatternState) : Option (PatternState × List Char) :=
  match pattern with
  | [] => none
  | code :: pattern => some (state.outputExpr (.legacyCharSyntax inverse code), pattern)

/-- `dispatch-backslash`, of a character and what follows it. -/
def dispatchBackslash (char : Char) (pattern : List Char) (state : PatternState) : Option (PatternState × List Char) :=
  match char with
  | '<' => some (state.outputExpr .wordStart, pattern)
  | '>' => some (state.outputExpr .wordEnd, pattern)
  | 'b' => some (state.outputExpr .wordBound, pattern)
  | 'B' => some (state.outputExpr .notWordBound, pattern)
  | '\x60' => some (state.outputExpr .stringStart, pattern)
  | '\x27' => some (state.outputExpr .stringEnd, pattern)
  | 'w' => some (state.outputExpr (.whitespace false), pattern)
  | 'W' => some (state.outputExpr (.whitespace true), pattern)
  | 's' => outputLegacyCode false pattern state
  | 'S' => outputLegacyCode true pattern state
  | '(' => some (state.startGroup, pattern)
  | ')' => state.endGroup.map fun state => (state, pattern)
  | '|' => some (state.pushAlt, pattern)
  | _ => none

/-- What `dispatch` does with a character, and what is left of the pattern. -/
def dispatchChar (order : Order) (char : Char) (pattern : List Char) (state : PatternState) :
    Option (PatternState × List Char) :=
  match char with
  | '\\' =>
      match pattern with
      | [] => none
      | char :: pattern => dispatchBackslash char pattern state
  | '$' => some (state.outputExpr .lineEnd, pattern)
  | '^' => some (state.outputExpr .lineStart, pattern)
  | '.' => some (state.outputExpr .anyChar, pattern)
  | '[' => (parseCharSet order pattern).map fun (expr, pattern) => (state.outputExpr expr, pattern)
  | '*' => (state.replaceLastExpr .star).map fun state => (state, pattern)
  | '+' => (state.replaceLastExpr .plus).map fun state => (state, pattern)
  | '?' => (state.replaceLastExpr .optional).map fun state => (state, pattern)
  | char => some (state.outputExpr (.char char), pattern)

theorem dispatchBackslash_length {state state' : PatternState}
    (h : dispatchBackslash char pattern state = some (state', rest)) : rest.length ≤ pattern.length := by
  have hcode : ∀ inverse, outputLegacyCode inverse pattern state = some (state', rest) →
      rest.length ≤ pattern.length := by
    intro inverse h
    cases pattern with
    | nil => cases h
    | cons code pattern =>
        cases h
        exact Nat.le_succ _
  unfold dispatchBackslash at h
  split at h
  case h_9 => exact hcode false h
  case h_10 => exact hcode true h
  case h_12 =>
    obtain ⟨state, -, h⟩ := map_eq_some_iff.mp h
    cases h
    exact le_rfl
  all_goals
    cases h
    try exact le_rfl

theorem dispatchChar_length {order : Order} {state state' : PatternState}
    (h : dispatchChar order char pattern state = some (state', rest)) : rest.length ≤ pattern.length := by
  have hreplace : ∀ transform, ((state.replaceLastExpr transform).map fun state => (state, pattern)) = some (state', rest) →
      rest.length ≤ pattern.length := by
    intro transform h
    obtain ⟨state, -, h⟩ := map_eq_some_iff.mp h
    cases h
    exact le_rfl
  unfold dispatchChar at h
  split at h
  case h_1 =>
    cases pattern with
    | nil => cases h
    | cons char pattern => exact (dispatchBackslash_length h).trans (Nat.le_succ _)
  case h_5 =>
    obtain ⟨⟨expr, pattern'⟩, hparse, h⟩ := map_eq_some_iff.mp h
    cases h
    exact (parseCharSet_length hparse).le
  case h_6 => exact hreplace _ h
  case h_7 => exact hreplace _ h
  case h_8 => exact hreplace _ h
  all_goals
    cases h
    exact le_rfl

def dispatch (order : Order) (pattern : List Char) (state : PatternState) : Option PatternForm :=
  match pattern with
  | [] => some state.getExpr
  | char :: pattern =>
      match _h : dispatchChar order char pattern state with
      | none => none
      | some (state, pattern) => dispatch order pattern state
termination_by pattern.length
decreasing_by exact Nat.lt_succ_of_le (dispatchChar_length _h)

/-- `re-pattern->regsexp` -/
def rePatternToRegsexp (order : Order) (pattern : List Char) : Option PatternForm :=
  dispatch order pattern ⟨[], [], 0, []⟩

/-! ## Negated forms -/

section

variable {nameToCharSet : CharSetName → CharSet} {entries : Nat → Nat}

theorem CharForm.matches_iff (form : CharForm) (char : Char) :
    form.Matches nameToCharSet entries char ↔ form.predicate nameToCharSet entries char = true := by
  have hnext : (stringPositions [char] 0 1).nextChar 0 = some char := rfl
  rw [Matches, topLevelMatch, insnCharMatching, hnext]
  split
  · rename_i h
    exact iff_of_true rfl h
  · rename_i h
    refine iff_of_false ?_ h
    intro heq
    cases heq

end

instance : DecidablePred Range.IsRange := by
  intro range
  cases range with
  | codePoint cp => exact inferInstanceAs (Decidable (cp < charCodeLimit))
  | pair start stop => exact inferInstanceAs (Decidable (stop ≤ 0x110000 ∧ start ≤ stop))

/-- The elements of a code-point list that `char-set*` is given. -/
def rangesToItems (ranges : List Range) : Option (List CplElement) :=
  ranges.mapM fun range => if h : range.IsRange then some (.range range h) else none

/-- The form of a pattern, if it is one that matches one character. -/
def PatternForm.toCharForm : PatternForm → Option CharForm
  | .whitespace inverse => some (if inverse then .inverseCharSet [.name .whitespace] else .charSet [.name .whitespace])
  | .charSet inverse ranges => (rangesToItems ranges).map fun items => if inverse then .inverseCharSet items else .charSet items
  | .legacyCharSyntax inverse code =>
      if h : code = '-' ∨ code ∈ charSyntaxCodes then
        some (if inverse then .inverseLegacyCharSyntax ⟨code, h⟩ else .legacyCharSyntax ⟨code, h⟩)
      else none
  | _ => none

/-- The contents of a bracket expression that is not negated itself. A closing bracket can be the first character only. -/
structure Contents where
  chars : List Char
  nonempty : chars ≠ []
  closing : ']' ∉ chars.tail
  notNegated : chars.head? ≠ some '^'

/-- The forms that have a negation. -/
inductive Negation where
  | charMatching (predicate : Char → Bool)
  | charSet (items : List CplElement)
  | legacyCharSyntax (code : LegacyCode)
  | bracket (contents : Contents)

/-- The form and its negation. -/
def Negation.forms (order : Order) : Negation → Option (CharForm × CharForm)
  | .charMatching predicate => some (.charMatching (.procedure predicate), .charMatching (.not predicate))
  | .charSet items => some (.charSet items, .inverseCharSet items)
  | .legacyCharSyntax code => some (.legacyCharSyntax code, .inverseLegacyCharSyntax code)
  | .bracket contents => do
      let form ← rePatternToRegsexp order ('[' :: (contents.chars ++ [']']))
      let negated ← rePatternToRegsexp order ('[' :: '^' :: (contents.chars ++ [']']))
      some (← form.toCharForm, ← negated.toCharForm)

/-- The negation matches the characters that the form does not match, in whatever order operands are evaluated. -/
def Negation.Complementary (nameToCharSet : CharSetName → CharSet) (entries : Nat → Nat) (negation : Negation) : Prop :=
  ∀ order, ∃ form negated, negation.forms order = some (form, negated) ∧
    ∀ char, negated.Matches nameToCharSet entries char ↔ ¬form.Matches nameToCharSet entries char

/-- The forms whose negation is not lost. -/
def Negation.Kept : Negation → Prop
  | .charMatching _ => False
  | .charSet _ => True
  | .legacyCharSyntax _ => True
  | .bracket contents => contents.chars.head? ≠ some ']'

/-! ## Bracket expressions -/

theorem charSetLoop_closed {chars : List Char} (h : ']' ∉ chars) (acc rest : List Char) :
    charSetLoop acc (chars ++ ']' :: rest) = some (chars.reverse ++ acc, rest) := by
  induction chars generalizing acc with
  | nil => rfl
  | cons char chars ih =>
      obtain ⟨hchar, hchars⟩ := ne_and_not_mem_of_not_mem_cons h
      rw [cons_append, charSetLoop, if_neg hchar.symm, ih hchars, reverse_cons, append_assoc]
      rfl

variable {char : Char} {rest : List Char}

theorem dispatch_cons {order : Order} {pattern : List Char} {state state' : PatternState}
    (h : dispatchChar order char pattern state = some (state', rest)) :
    dispatch order (char :: pattern) state = dispatch order rest state' := by
  rw [dispatch]
  split
  · rename_i hnone
    rw [h] at hnone
    cases hnone
  · rename_i hsome
    rw [h] at hsome
    cases hsome
    rfl

theorem rePatternToRegsexp_bracket {order : Order} {text start : List Char}
    (hstart : charSetStart order text = some (start, rest ++ [']'])) (hrest : ']' ∉ rest) :
    rePatternToRegsexp order ('[' :: text) =
      some (.charSet (reCharPatternToCodePoints (start.reverse ++ rest)).2
        (normalizeRanges (reCharPatternToCodePoints (start.reverse ++ rest)).1)) := by
  have hparse : parseCharSet order text = some (.charSet (reCharPatternToCodePoints (start.reverse ++ rest)).2
      (normalizeRanges (reCharPatternToCodePoints (start.reverse ++ rest)).1), []) := by
    simp only [parseCharSet, hstart, bind_eq_bind, bind_some, charSetLoop_closed hrest, reverse_append,
      reverse_reverse]
  have hchar : ∀ state, dispatchChar order '[' text state =
      (parseCharSet order text).map fun (expr, pattern) => (state.outputExpr expr, pattern) := fun state => rfl
  rw [rePatternToRegsexp, dispatch_cons (by rw [hchar, hparse]; rfl), dispatch]
  rfl

theorem nextIs_of_ne {pattern : List Char} (hpattern : pattern ≠ []) (h : pattern.head? ≠ some char) :
    nextIs char pattern = some (false, pattern) := by
  cases pattern with
  | nil => exact absurd rfl hpattern
  | cons next pattern =>
      rw [nextIs, if_neg]
      intro heq
      exact h (by rw [heq]; rfl)

theorem head?_append_ne {chars : List Char} (hchars : chars ≠ []) (h : chars.head? ≠ some char) (rest : List Char) :
    (chars ++ rest).head? ≠ some char := by
  cases chars with
  | nil => exact absurd rfl hchars
  | cons next chars => exact h

theorem mapM_ranges {ranges : List Range} (h : ∀ range ∈ ranges, range.IsRange) :
    ∃ items, rangesToItems ranges = some items ∧
      ∀ nameToCharSet cp, (∃ element ∈ items, CplElement.Has nameToCharSet cp element) ↔
        ∃ range ∈ ranges, range.Has cp := by
  induction ranges with
  | nil => exact ⟨[], rfl, fun _ _ => by simp⟩
  | cons range ranges ih =>
      obtain ⟨hrange, hranges⟩ := forall_mem_cons.mp h
      obtain ⟨items, hitems, hhas⟩ := ih hranges
      refine ⟨.range range hrange :: items, ?_, ?_⟩
      · rw [rangesToItems] at hitems ⊢
        rw [mapM_cons, dif_pos hrange, hitems]
        rfl
      · intro nameToCharSet cp
        rw [exists_mem_cons_iff, exists_mem_cons_iff, hhas]
        rfl

theorem rangesToItems_normalize {ranges : List Range} (h : ∀ range ∈ ranges, range.stop ≤ 0x110000) :
    ∃ items, rangesToItems (normalizeRanges ranges) = some items ∧
      ∀ nameToCharSet cp, (∃ element ∈ items, CplElement.Has nameToCharSet cp element) ↔
        ∃ range ∈ ranges, range.Has cp := by
  obtain ⟨hapart, hhas, hstop⟩ := @normalizeRanges_spec ranges
  obtain ⟨items, hitems, hsame⟩ := @mapM_ranges (normalizeRanges ranges) (by
    intro range hrange
    have hle := hstop 0x110000 h range hrange
    have hlt := hapart.2 range hrange
    cases range with
    | codePoint cp => exact hle
    | pair start stop => exact ⟨hle, hlt.le⟩)
  exact ⟨items, hitems, fun nameToCharSet cp => (hsame nameToCharSet cp).trans (hhas cp)⟩

theorem codePointsLoop_append (pattern : List Char) (acc : List Range) :
    codePointsLoop pattern acc = codePointsLoop pattern [] ++ acc := by
  suffices ∀ acc, codePointsLoop pattern acc = codePointsLoop pattern [] ++ acc from this acc
  induction pattern, acc using codePointsLoop.induct with
  | case1 acc => intro acc; rfl
  | case2 first last pattern acc ih =>
      intro acc
      rw [codePointsLoop, codePointsLoop, ih (_ :: acc), ih [_], append_assoc]
      rfl
  | case3 char pattern acc hne ih =>
      intro acc
      rw [codePointsLoop.eq_3 acc char pattern hne, codePointsLoop.eq_3 [] char pattern hne, ih (_ :: acc), ih [_],
        append_assoc]
      rfl

theorem codePointsLoop_stop (pattern : List Char) (acc : List Range) (h : ∀ range ∈ acc, range.stop ≤ 0x110000) :
    ∀ range ∈ codePointsLoop pattern acc, range.stop ≤ 0x110000 := by
  have hchar : ∀ char : Char, char.toNat + 1 ≤ 0x110000 := by
    intro char
    rcases char.valid with h | h
    · exact h.trans (by decide)
    · exact h.2
  fun_induction codePointsLoop pattern acc with
  | case1 acc => exact h
  | case2 first last pattern acc ih => exact ih (forall_mem_cons.mpr ⟨hchar last, h⟩)
  | case3 char pattern acc hne ih => exact ih (forall_mem_cons.mpr ⟨hchar char, h⟩)

theorem toNat_lt (char : Char) : char.toNat < charCodeLimit := by
  rcases char.valid with h | h
  · exact h.trans (by decide)
  · exact h.2

theorem toCharForm_bracket (nameToCharSet : CharSetName → CharSet) (chars : List Char) :
    ∃ items, (∀ inverse, (PatternForm.charSet inverse (normalizeRanges (codePointsLoop chars []))).toCharForm =
        some (if inverse then .inverseCharSet items else .charSet items)) ∧
      ∀ char, charSetPredicate (charSetStar nameToCharSet items) char = true ↔
        ∃ range ∈ codePointsLoop chars [], range.Has char.toNat := by
  obtain ⟨items, hitems, hhas⟩ := rangesToItems_normalize (codePointsLoop_stop chars [] (by simp))
  refine ⟨items, ?_, ?_⟩
  · intro inverse
    rw [PatternForm.toCharForm, hitems, map_some]
  · intro char
    have hlimit := toNat_lt char
    rw [charSetPredicate, charInSet, bitlessChar, decide_eq_true hlimit, Bool.true_and, mem_charSet nameToCharSet hlimit,
      hhas]

variable {nameToCharSet : CharSetName → CharSet} {entries : Nat → Nat}

theorem nextIs_self (char : Char) (pattern : List Char) : nextIs char (char :: pattern) = some (true, pattern) := by
  rw [nextIs, if_pos rfl]

theorem bracket_kept {contents : Contents} (h : contents.chars.head? ≠ some ']') :
    (Negation.bracket contents).Complementary nameToCharSet entries := by
  obtain ⟨chars, hne, hclosing, hcaret⟩ := contents
  have hmem : ']' ∉ chars := by
    intro hmem
    cases chars with
    | nil => exact hne rfl
    | cons char chars =>
        rcases mem_cons.mp hmem with heq | htail
        · exact h (congrArg some heq.symm)
        · exact hclosing htail
  have hend : chars ++ [']'] ≠ [] := by simp
  have hnotBracket := nextIs_of_ne hend (head?_append_ne hne h [']'])
  have hnotCaret := nextIs_of_ne hend (head?_append_ne hne hcaret [']'])
  have hcaretFirst : nextIs ']' ('^' :: (chars ++ [']'])) = some (false, '^' :: (chars ++ [']'])) :=
    nextIs_of_ne (cons_ne_nil _ _) (by simp)
  intro order
  have hform : charSetStart order (chars ++ [']']) = some ([], chars ++ [']']) := by
    cases order <;> simp [charSetStart, hnotBracket, hnotCaret]
  have hnegated : charSetStart order ('^' :: (chars ++ [']'])) = some (['^'], chars ++ [']']) := by
    cases order <;> simp [charSetStart, hnotBracket, hcaretFirst, nextIs_self]
  have hplain : reCharPatternToCodePoints chars = (codePointsLoop chars [], false) := by
    unfold reCharPatternToCodePoints
    split
    · exact absurd rfl hcaret
    · rfl
  have hinverse : reCharPatternToCodePoints ('^' :: chars) = (codePointsLoop chars [], true) := rfl
  obtain ⟨items, hitems, -⟩ := toCharForm_bracket nameToCharSet chars
  refine ⟨.charSet items, .inverseCharSet items, ?_, ?_⟩
  · simp only [Negation.forms, rePatternToRegsexp_bracket hform hmem, rePatternToRegsexp_bracket hnegated hmem,
      reverse_nil, nil_append, reverse_singleton, singleton_append, hplain, hinverse,
      bind_eq_bind, bind_some, hitems]
    rfl
  · intro char
    rw [CharForm.matches_iff, CharForm.matches_iff, CharForm.predicate, CharForm.predicate, negate]
    simp

theorem closing_has (h : ∀ last pattern, rest ≠ '-' :: last :: pattern) :
    ∃ range ∈ codePointsLoop (']' :: rest) [], range.Has ']'.toNat := by
  rw [codePointsLoop.eq_3 [] ']' rest h, codePointsLoop_append]
  exact ⟨.codePoint ']'.toNat, mem_append_right _ (mem_singleton_self _), has_codePoint.mpr rfl⟩

theorem closing_same (rest : List Char) : ∃ char : Char,
    (∃ range ∈ codePointsLoop (']' :: rest) [], range.Has char.toNat) ↔
      ∃ range ∈ codePointsLoop (']' :: '^' :: rest) [], range.Has char.toNat := by
  have hcaret : ∃ range ∈ codePointsLoop (']' :: '^' :: rest) [], range.Has ']'.toNat :=
    closing_has fun last pattern heq => by cases heq
  by_cases hrange : ∃ last pattern, rest = '-' :: last :: pattern
  · obtain ⟨last, pattern, rfl⟩ := hrange
    have hform : codePointsLoop (']' :: '-' :: last :: pattern) [] =
        codePointsLoop pattern [] ++ [.pair ']'.toNat (last.toNat + 1)] := by
      rw [codePointsLoop, codePointsLoop_append]
    have hnegated : codePointsLoop (']' :: '^' :: '-' :: last :: pattern) [] =
        codePointsLoop pattern [] ++ [.pair '^'.toNat (last.toNat + 1), .codePoint ']'.toNat] := by
      rw [codePointsLoop.eq_3 [] ']' _ (fun last pattern heq => by cases heq), codePointsLoop, codePointsLoop_append]
    by_cases hlast : ']'.toNat ≤ last.toNat
    · refine ⟨']', iff_of_true ?_ hcaret⟩
      rw [hform]
      exact ⟨_, mem_append_right _ (mem_singleton_self _), le_rfl, Nat.lt_succ_of_le hlast⟩
    · -- The range is empty, and so is the one from the character behind.
      have hbracket : ']'.toNat = 93 := rfl
      have hout : ¬(Range.pair ']'.toNat (last.toNat + 1)).Has 'a'.toNat := fun h => hlast (by
        have : 97 < last.toNat + 1 := h.2
        omega)
      have hout' : ¬(Range.pair '^'.toNat (last.toNat + 1)).Has 'a'.toNat := fun h => hlast (by
        have : 97 < last.toNat + 1 := h.2
        omega)
      have hclosing : ¬(Range.codePoint ']'.toNat).Has 'a'.toNat := by
        rw [has_codePoint]
        decide
      refine ⟨'a', ?_⟩
      rw [hform, hnegated]
      simp only [mem_append, mem_cons, not_mem_nil, or_false, or_and_right, exists_or, exists_eq_left, hout,
        hout', hclosing]
  · refine ⟨']', iff_of_true (closing_has ?_) hcaret⟩
    intro last pattern heq
    exact hrange ⟨last, pattern, heq⟩

theorem bracket_lost {contents : Contents} (h : contents.chars.head? = some ']') :
    ¬(Negation.bracket contents).Complementary nameToCharSet entries := by
  obtain ⟨chars, hne, hclosing, hcaret⟩ := contents
  obtain ⟨rest, rfl⟩ := List.head?_eq_some_iff.mp h
  have hrest : ']' ∉ rest := hclosing
  have hform : charSetStart .leftToRight (']' :: (rest ++ [']'])) = some ([']'], rest ++ [']']) := by
    have hnotCaret : nextIs '^' (']' :: (rest ++ [']'])) = some (false, ']' :: (rest ++ [']'])) :=
      nextIs_of_ne (cons_ne_nil _ _) (by simp)
    simp [charSetStart, hnotCaret, nextIs_self]
  have hnegated : charSetStart .leftToRight ('^' :: ']' :: (rest ++ [']'])) = some (['^', ']'], rest ++ [']']) := by
    simp [charSetStart, nextIs_self]
  obtain ⟨items, hitems, hhas⟩ := toCharForm_bracket nameToCharSet (']' :: rest)
  obtain ⟨items', hitems', hhas'⟩ := toCharForm_bracket nameToCharSet (']' :: '^' :: rest)
  have hforms : (Negation.bracket ⟨']' :: rest, hne, hclosing, hcaret⟩).forms .leftToRight =
      some (.charSet items, .charSet items') := by
    have hplain : reCharPatternToCodePoints (']' :: rest) = (codePointsLoop (']' :: rest) [], false) := rfl
    have hplain' : reCharPatternToCodePoints (']' :: '^' :: rest) = (codePointsLoop (']' :: '^' :: rest) [], false) := rfl
    have hreverse : ['^', ']'].reverse = [']', '^'] := rfl
    simp only [Negation.forms, cons_append, rePatternToRegsexp_bracket hform hrest,
      rePatternToRegsexp_bracket hnegated hrest, reverse_singleton, nil_append, hreverse, hplain, hplain',
      bind_eq_bind, bind_some, hitems, hitems']
    rfl
  obtain ⟨char, hboth⟩ := closing_same rest
  intro hcomplementary
  obtain ⟨form, negated, heq, hmatches⟩ := hcomplementary .leftToRight
  rw [hforms] at heq
  cases heq
  have hchar := hmatches char
  rw [CharForm.matches_iff, CharForm.matches_iff, CharForm.predicate, CharForm.predicate, hhas, hhas', hboth] at hchar
  exact iff_not_self hchar

/-- **A negated form matches what the form does not, unless it is a `not` in `char-matching` or a bracket expression that
begins with a closing bracket.** -/
theorem negation_complementary_iff (nameToCharSet : CharSetName → CharSet) (entries : Nat → Nat) (negation : Negation) :
    negation.Complementary nameToCharSet entries ↔ negation.Kept := by
  cases negation with
  | charMatching predicate =>
      refine iff_of_false ?_ id
      intro hcomplementary
      obtain ⟨form, negated, heq, hmatches⟩ := hcomplementary .leftToRight
      cases heq
      have hchar := hmatches 'a'
      exact iff_not_self hchar
  | charSet items | legacyCharSyntax code =>
      refine iff_of_true ?_ trivial
      intro order
      refine ⟨_, _, rfl, ?_⟩
      intro char
      rw [CharForm.matches_iff, CharForm.matches_iff, CharForm.predicate, CharForm.predicate, negate]
      simp
  | bracket contents =>
      constructor
      · intro hcomplementary hbracket
        exact bracket_lost hbracket hcomplementary
      · exact bracket_kept

/-- `(char-matching (not p))` matches a letter for which `p` holds, and `[^]a]` is not the complement of `[]a]`. -/
theorem negation_lost :
    (∃ form negated, (Negation.charMatching fun char => char = 'a').forms .leftToRight = some (form, negated) ∧
      ∀ nameToCharSet entries, form.Matches nameToCharSet entries 'a' ∧ negated.Matches nameToCharSet entries 'a') ∧
    ∀ nameToCharSet entries,
      ¬(Negation.bracket ⟨[']', 'a'], by decide, by decide, by decide⟩).Complementary nameToCharSet entries := by
  constructor
  · refine ⟨_, _, rfl, ?_⟩
    intro nameToCharSet entries
    exact ⟨rfl, rfl⟩
  · intro nameToCharSet entries
    exact bracket_lost rfl

end MitScheme.RegularSexpression
