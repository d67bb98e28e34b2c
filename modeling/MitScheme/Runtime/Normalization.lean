import MitScheme.Lib.Slices

/-!
# Normalization

The canonical decomposition, ordering and composition of `ustring.scm`, the quick checks, and the strings of
several kinds that they are for. A character is its code point.
-/

namespace MitScheme.Normalization

/-- What a character decomposes into: one character, which may be itself, or a string of two. -/
inductive Mapping where
  | char (c : Nat)
  | string (c1 c2 : Nat)
deriving DecidableEq

/-- The character that the decomposition goes on with. -/
def Mapping.first : Mapping → Nat
  | .char c => c
  | .string c1 _ => c1

/-- The tables that are generated from the UCD. Decomposition comes to an end. -/
structure Tables where
  /-- `ucd-ccc-value` -/
  ccc : Nat → Nat
  /-- `ucd-canonical-dm-value` -/
  canonicalDm : Nat → Mapping
  /-- `ucd-canonical-cm-value` -/
  canonicalCm : Nat → Option Nat
  /-- `ucd-canonical-cm-second-keys` -/
  secondKeys : Nat → List Nat
  /-- `ucd-canonical-cm-second-values` -/
  secondValues : Nat → List Nat
  /-- `char-nfc-quick-check?` -/
  nfcQuickCheck : Nat → Bool
  /-- `char-nfd-quick-check?` -/
  nfdQuickCheck : Nat → Bool
  depth : Nat → Nat
  depth_first : ∀ char, canonicalDm char ≠ .char char → depth (canonicalDm char).first < depth char

def jamoLeadingStart : Nat := 0x1100
def jamoLeadingEnd : Nat := 0x1113
def jamoVowelStart : Nat := 0x1161
def jamoVowelEnd : Nat := 0x1176
def jamoTrailingStart : Nat := 0x11A8
def jamoTrailingEnd : Nat := 0x11C3
def jamoPrecomposedStart : Nat := 0xAC00
def jamoPrecomposedEnd : Nat := 0xD7A4

def jamoVowelSize : Nat := jamoVowelEnd - jamoVowelStart
def jamoTrailingSize : Nat := jamoTrailingEnd - jamoTrailingStart
def jamoTbase : Nat := jamoTrailingStart - 1
def jamoTcount : Nat := jamoTrailingSize + 1
def jamoNcount : Nat := jamoVowelSize * jamoTcount

def jamoLeading (char : Nat) : Bool := jamoLeadingStart ≤ char && char < jamoLeadingEnd

def jamoVowel (char : Nat) : Bool := jamoVowelStart ≤ char && char < jamoVowelEnd

def jamoTrailing (char : Nat) : Bool := jamoTrailingStart ≤ char && char < jamoTrailingEnd

def jamoPrecomposed (char : Nat) : Bool := jamoPrecomposedStart ≤ char && char < jamoPrecomposedEnd

def jamoDecompose (precomposed : Nat) : List Nat :=
  let pi := precomposed - jamoPrecomposedStart
  let ti := pi % jamoTcount
  [jamoLeadingStart + pi / jamoNcount, jamoVowelStart + pi % jamoNcount / jamoTcount]
    ++ if ti > 0 then [jamoTbase + ti] else []

def jamoCompose (leading vowel : Nat) (trailing : Option Nat) : Nat :=
  jamoPrecomposedStart
    + (((leading - jamoLeadingStart) * jamoNcount + (vowel - jamoVowelStart) * jamoTcount)
      + match trailing with
        | some trailing => trailing - jamoTbase
        | none => 0)

variable (T : Tables)

/-- The loop of `string-nqc-loop`. -/
def nqcLoop (cpLimit : Nat) (charNqc : Nat → Bool) : List Nat → Nat → Bool
  | [], _ => true
  | char :: rest, lastCcc =>
      if char < cpLimit then nqcLoop cpLimit charNqc rest 0
      else (T.ccc char = 0 || lastCcc ≤ T.ccc char) && charNqc char && nqcLoop cpLimit charNqc rest (T.ccc char)

/-- `%ustring-nfc-qc?` -/
def nfcQc (chars : List Nat) : Bool := nqcLoop T 0x300 T.nfcQuickCheck chars 0

/-- `%ustring-nfd-qc?` -/
def nfdQc (chars : List Nat) : Bool := nqcLoop T 0xC0 T.nfdQuickCheck chars 0

/-- The loop of `canonical-decomposition&ordering` for a character. -/
def decomposeChar (char : Nat) : List Nat :=
  if jamoPrecomposed char then jamoDecompose char
  else if _h : T.canonicalDm char = .char char then [char]
  else
    match _hdm : T.canonicalDm char with
    | .char c => decomposeChar c
    | .string c1 c2 => decomposeChar c1 ++ [c2]
termination_by T.depth char
decreasing_by
  all_goals
    have hlt := T.depth_first char _h
    rw [_hdm, Mapping.first] at hlt
    exact hlt

def maybeTwiddle (ccc : Nat) : List Nat → Nat → List Nat → List Nat × List Nat
  | previous :: rest, i, string =>
      if ccc < previous then
        let swapped := (string.set (i - 1) (string.getD i 0)).set i (string.getD (i - 1) 0)
        let result := maybeTwiddle ccc rest (i - 1) swapped
        (previous :: result.1, result.2)
      else (ccc :: previous :: rest, string)
  | [], _, string => ([ccc], string)

mutual

/-- `scan-for-non-starter`, with the number of characters that are left. -/
def scanForNonStarter (i : Nat) (string : List Nat) : Nat → List Nat
  | 0 => string
  | left + 1 =>
      let ccc := T.ccc (string.getD i 0)
      if ccc = 0 then scanForNonStarter (i + 1) string left
      else scanForNonStarterPair [ccc] (i + 1) string left

def scanForNonStarterPair (previous : List Nat) (i : Nat) (string : List Nat) : Nat → List Nat
  | 0 => string
  | left + 1 =>
      let ccc := T.ccc (string.getD i 0)
      if ccc = 0 then scanForNonStarter (i + 1) string left
      else
        let result := maybeTwiddle ccc previous i string
        scanForNonStarterPair result.1 (i + 1) result.2 left

end

/-- `canonical-decomposition&ordering` -/
def canonicalDecomposition (chars : List Nat) : List Nat :=
  let string := chars.flatMap (decomposeChar T)
  scanForNonStarter T 0 string string.length

/-! ## Composition -/

/-- The loop of `match-second`. -/
def matchLoop (keys values : List Nat) (sc start stop : Nat) : Option Nat :=
  if start < stop then
    let m := (start + stop) / 2
    if sc < keys.getD m 0 then matchLoop keys values sc start m
    else if keys.getD m 0 < sc then matchLoop keys values sc (m + 1) stop
    else values[m]?
  else none
termination_by stop - start

def matchSecond (fcIndex sc : Nat) : Option Nat :=
  matchLoop (T.secondKeys fcIndex) (T.secondValues fcIndex) sc 0 (T.secondKeys fcIndex).length

def getCombiners : List Nat → List (Nat × Nat)
  | [] => []
  | char :: rest => if T.ccc char = 0 then [] else (char, T.ccc char) :: getCombiners rest

def doneMatching (fc : Nat) (combiners : List (Nat × Nat)) : List Nat := fc :: combiners.map Prod.fst

/-- The loop of `scan-combiners`, with the combiners that it has passed. -/
def combinersLoop (fc fcIndex : Nat) (passed : List (Nat × Nat)) (lastCcc : Nat) :
    List (Nat × Nat) → List Nat
  | [] => doneMatching fc passed
  | c :: cs =>
      match if lastCcc < c.2 then matchSecond T fcIndex c.1 else none with
      | some fc' =>
          match T.canonicalCm fc' with
          | some fcIndex' => combinersLoop fc' fcIndex' [] 0 (passed ++ cs)
          | none => doneMatching fc' (passed ++ cs)
      | none => combinersLoop fc fcIndex (passed ++ [c]) c.2 cs
termination_by cs => (passed.length + cs.length, cs.length)
decreasing_by
  · apply Prod.Lex.left
    simp
  · apply Prod.Lex.right'
    · simp
      omega
    · simp

def scanCombiners (fc fcIndex : Nat) (combiners : List (Nat × Nat)) : List Nat :=
  combinersLoop T fc fcIndex [] 0 combiners

mutual

def scanForFirstChar : List Nat → List Nat
  | [] => []
  | fc :: rest =>
      match rest with
      | vowel :: rest' =>
          if jamoLeading fc && jamoVowel vowel then
            match rest' with
            | trailing :: rest'' =>
                if jamoTrailing trailing then
                  jamoCompose fc vowel (some trailing) :: scanForFirstChar rest''
                else jamoCompose fc vowel none :: scanForFirstChar (trailing :: rest'')
            | [] => [jamoCompose fc vowel none]
          else testFirstChar fc (vowel :: rest')
      | [] => testFirstChar fc []
termination_by string => 2 * string.length

def testFirstChar (fc : Nat) (rest : List Nat) : List Nat :=
  match rest, T.canonicalCm fc with
  | sc :: rest', some fcIndex =>
      let combiners := getCombiners T (sc :: rest')
      if combiners ≠ [] then
        scanCombiners T fc fcIndex combiners ++ scanForFirstChar ((sc :: rest').drop combiners.length)
      else
        match matchSecond T fcIndex sc with
        | some fc' => testFirstChar fc' rest'
        | none => fc :: scanForFirstChar (sc :: rest')
  | rest, _ => fc :: scanForFirstChar rest
termination_by 2 * rest.length + 1
decreasing_by
  all_goals
    simp only [wfParam, List.length_drop, List.length_cons]
    omega

end

def canonicalComposition (string : List Nat) : List Nat := scanForFirstChar T string

/-! ## Strings -/

/-- A string that is no slice, with its flags. -/
inductive Ustring where
  | legacy (chars : List Nat)
  | ustring (chars : List Nat) (cpSize : Nat) (inNfc inNfd : Bool)

def Ustring.chars : Ustring → List Nat
  | .legacy chars => chars
  | .ustring chars _ _ _ => chars

/-- `ustring-cp-size` -/
def Ustring.cpSize : Ustring → Nat
  | .legacy _ => 1
  | .ustring _ cpSize _ _ => cpSize

inductive Str where
  | ustring (string : Ustring)
  | slice (string : Ustring) (start length : Nat)

/-- What `unpack-slice` passes on. -/
def Str.chars : Str → List Nat
  | .ustring string => string.chars
  | .slice string start length => MitScheme.slice string.chars start (start + length)

def ustringNfcQc (string : Ustring) (start stop : Nat) : Bool :=
  string.cpSize = 1 || nfcQc T (slice string.chars start stop)

def ustringNfdQc (string : Ustring) (start stop : Nat) : Bool := nfdQc T (slice string.chars start stop)

def stringInNfc : Str → Bool
  | .ustring (.legacy _) => true
  | .ustring (.ustring chars cpSize inNfc inNfd) =>
      if cpSize = 0 then ustringNfcQc T (.ustring chars cpSize inNfc inNfd) 0 chars.length else inNfc
  | .slice string start length => ustringNfcQc T string start (start + length)

def stringInNfd : Str → Bool
  | .ustring (.legacy chars) => ustringNfdQc T (.legacy chars) 0 chars.length
  | .ustring (.ustring chars cpSize inNfc inNfd) =>
      if cpSize = 0 then ustringNfdQc T (.ustring chars cpSize inNfc inNfd) 0 chars.length else inNfd
  | .slice string start length => ustringNfdQc T string start (start + length)

/-- `immutable-ustring-allocate`, filled with some characters the greatest of which is known. -/
def immutableUstring (chars : List Nat) : Ustring :=
  let maxCp := chars.foldl max 0
  if maxCp < 0x100 then .ustring chars 1 true (maxCp < 0xC0)
  else if maxCp < 0x10000 then .ustring chars 2 (maxCp < 0x300) false
  else .ustring chars 3 false false

/-- `ustring-in-nfc!` -/
def Ustring.setInNfc : Ustring → Ustring
  | .ustring chars cpSize _ inNfd => .ustring chars cpSize true inNfd
  | .legacy chars => .legacy chars

/-- `ustring-in-nfd!` -/
def Ustring.setInNfd : Ustring → Ustring
  | .ustring chars cpSize inNfc _ => .ustring chars cpSize inNfc true
  | .legacy chars => .legacy chars

/-- `ustring-in-nfc?`, which no legacy string is asked for. -/
def flaggedNfc : Str → Bool
  | .ustring (.ustring _ _ inNfc _) => inNfc
  | _ => false

/-- `ustring-in-nfd?` -/
def flaggedNfd : Str → Bool
  | .ustring (.ustring _ _ _ inNfd) => inNfd
  | _ => false

/-- `string->nfc` -/
def stringToNfc (string : Str) : Str :=
  if flaggedNfc string then string
  else if stringInNfc T string then .ustring (immutableUstring string.chars).setInNfc
  else
    let decomposed := if stringInNfd T string then string.chars else canonicalDecomposition T string.chars
    .ustring (immutableUstring (canonicalComposition T decomposed)).setInNfc

/-- `string->nfd` -/
def stringToNfd (string : Str) : Str :=
  if flaggedNfd string then string
  else if stringInNfd T string then .ustring (immutableUstring string.chars).setInNfd
  else .ustring (immutableUstring (canonicalDecomposition T string.chars)).setInNfd

end MitScheme.Normalization
