import MitScheme.Runtime.ChrsetListsProof

/-!
# Character sets

The constructors, accessors and combinations of `chrset.scm`. All char-sets are constructed from an
inversion list, so that a `CharSet` carries the proof that its bytes are those of a canonical list.
A character is the integer that `char->integer` gives for it, which is a code point unless the
character has bucky bits.
-/

namespace MitScheme.Chrset

open Codec InversionList

structure CharSet where
  low : Bytevector
  high : Bytevector
  constructed : ∃ ilist, Canonical charCodeLimit ilist
    ∧ low = inversionListToLow ilist (chooseLowLimit ilist)
    ∧ high = inversionListToHigh ilist (chooseLowLimit ilist)

/-- `%inversion-list->char-set` -/
def inversionListToCharSet (ilist : List Nat) (h : Canonical charCodeLimit ilist) : CharSet :=
  let lowLimit := chooseLowLimit ilist
  ⟨inversionListToLow ilist lowLimit, inversionListToHigh ilist lowLimit, ilist, h, rfl, rfl⟩

/-- `%char-set->inversion-list` -/
def charSetToInversionList (charSet : CharSet) : List Nat :=
  bytesToInversionList charSet.low charSet.high

@[simp] theorem charSetToInversionList_inversionListToCharSet {ilist : List Nat}
    (h : Canonical charCodeLimit ilist) :
    charSetToInversionList (inversionListToCharSet ilist h) = ilist :=
  bytesToInversionList_eq h (chooseLowLimit_mod ilist)

theorem canonical_charSetToInversionList (charSet : CharSet) :
    Canonical charCodeLimit (charSetToInversionList charSet) := by
  obtain ⟨ilist, h, hlow, hhigh⟩ := charSet.constructed
  rw [charSetToInversionList, hlow, hhigh, bytesToInversionList_eq h (chooseLowLimit_mod ilist)]
  exact h

/-- `%code-point-in-char-set?`, and `code-point-in-char-set?` of a code point. -/
def codePointInCharSet (cp : Nat) (charSet : CharSet) : Bool :=
  codePointInBytes cp charSet.low charSet.high

def bitlessChar (char : Nat) : Bool := char < charCodeLimit

def charInSet (char : Nat) (charSet : CharSet) : Bool :=
  bitlessChar char && codePointInCharSet char charSet

/-- `char-set=?` -/
def charSetEqual (charSet : CharSet) (charSets : List CharSet) : Bool :=
  charSets.all fun charSet' => charSet'.low == charSet.low && charSet'.high == charSet.high

/-! ## Combinations -/

def reduce {α : Type} (procedure : α → α → α) (default : α) : List α → α
  | first :: rest => rest.foldl (fun state item => procedure item state) first
  | [] => default

section Combinations

variable {operation : List Nat → List Nat → List Nat} {ilists : List (List Nat)}
  {first default : List Nat}

theorem canonical_foldl
    (hoperation : ∀ il1 il2, Canonical charCodeLimit il1 → Canonical charCodeLimit il2 →
      Canonical charCodeLimit (operation il1 il2))
    (hfirst : Canonical charCodeLimit first)
    (h : ∀ ilist ∈ ilists, Canonical charCodeLimit ilist) :
    Canonical charCodeLimit (ilists.foldl operation first) := by
  induction ilists generalizing first with
  | nil => exact hfirst
  | cons ilist ilists ih =>
      exact ih (hoperation first ilist hfirst (h ilist List.mem_cons_self))
        fun ilist' hilist' => h ilist' (List.mem_cons_of_mem ilist hilist')

theorem canonical_reduce
    (hoperation : ∀ il1 il2, Canonical charCodeLimit il1 → Canonical charCodeLimit il2 →
      Canonical charCodeLimit (operation il1 il2))
    (hdefault : Canonical charCodeLimit default)
    (h : ∀ ilist ∈ ilists, Canonical charCodeLimit ilist) :
    Canonical charCodeLimit (reduce operation default ilists) := by
  cases ilists with
  | nil => exact hdefault
  | cons first ilists =>
      exact canonical_foldl (fun il1 il2 h1 h2 => hoperation il2 il1 h2 h1)
        (h first List.mem_cons_self)
        fun ilist hilist => h ilist (List.mem_cons_of_mem first hilist)

theorem canonical_inversionListUnion {il1 il2 : List Nat} (h1 : Canonical charCodeLimit il1)
    (h2 : Canonical charCodeLimit il2) :
    Canonical charCodeLimit (inversionListUnion il1 il2) :=
  (makeInversionListCombiner_spec h1 h2).1

theorem canonical_inversionListIntersection {il1 il2 : List Nat}
    (h1 : Canonical charCodeLimit il1) (h2 : Canonical charCodeLimit il2) :
    Canonical charCodeLimit (inversionListIntersection il1 il2) :=
  (makeInversionListCombiner_spec h1 h2).1

theorem canonical_inversionListDifference {il1 il2 : List Nat} (h1 : Canonical charCodeLimit il1)
    (h2 : Canonical charCodeLimit il2) :
    Canonical charCodeLimit (inversionListDifference il1 il2) :=
  (makeInversionListCombiner_spec h1 h2).1

end Combinations

theorem canonical_of_mem_map {charSets : List CharSet} {ilist : List Nat}
    (h : ilist ∈ charSets.map charSetToInversionList) : Canonical charCodeLimit ilist := by
  obtain ⟨charSet, -, rfl⟩ := List.mem_map.mp h
  exact canonical_charSetToInversionList charSet

theorem canonical_full : Canonical charCodeLimit [0, 0x110000] := by
  refine ⟨?_, rfl, ?_⟩
  · simp
  · simp

/-- `char-set-union*`, which is `char-set-union` with its arguments in a list. -/
def charSetUnion (charSets : List CharSet) : CharSet :=
  inversionListToCharSet
    (reduce inversionListUnion [] (charSets.map charSetToInversionList))
    (canonical_reduce (fun _ _ => canonical_inversionListUnion) .nil fun _ => canonical_of_mem_map)

/-- `char-set-intersection*`, which is `char-set-intersection` with its arguments in a list. -/
def charSetIntersection (charSets : List CharSet) : CharSet :=
  inversionListToCharSet
    (reduce inversionListIntersection [0, 0x110000] (charSets.map charSetToInversionList))
    (canonical_reduce (fun _ _ => canonical_inversionListIntersection) canonical_full
      fun _ => canonical_of_mem_map)

def charSetDifference (charSet : CharSet) (charSets : List CharSet) : CharSet :=
  inversionListToCharSet
    ((charSets.map charSetToInversionList).foldl inversionListDifference
      (charSetToInversionList charSet))
    (canonical_foldl (fun _ _ => canonical_inversionListDifference)
      (canonical_charSetToInversionList charSet) fun _ => canonical_of_mem_map)

def charSetInvert (charSet : CharSet) : CharSet :=
  inversionListToCharSet (inversionListInvert (charSetToInversionList charSet))
    (inversionListInvert_spec (canonical_charSetToInversionList charSet)).1

def computeCharSet (procedure : Nat → Bool) : CharSet :=
  inversionListToCharSet (computeInversionList procedure) (computeInversionList_spec procedure).1

/-- The names that `name->char-set` knows. -/
inductive CharSetName where
  | alphabetic | alphanumeric | cased | lowerCase | numeric | unicode | upperCase | whitespace
deriving DecidableEq, Repr

/-- What `cpl-element?` accepts. -/
inductive CplElement where
  | range (range : Range) (isRange : range.IsRange)
  | char (char : Nat) (bitless : char < charCodeLimit)
  | string (chars : List Nat) (bitless : ∀ char ∈ chars, char < charCodeLimit)
  | charSet (charSet : CharSet)
  | name (name : CharSetName)

abbrev CodePointRange := { range : Range // range.IsRange }

/-- `%cpl-element->ranges` -/
def cplElementToRanges : CplElement → Option (List CodePointRange)
  | .range range isRange => some [⟨range, isRange⟩]
  | .char char bitless => some [⟨.codePoint char, bitless⟩]
  | .string chars bitless =>
      some (chars.attach.map fun ⟨char, h⟩ => ⟨.codePoint char, bitless char h⟩)
  | _ => none

/-- `%ranges->char-set`, of normalized ranges. -/
def rangesToCharSet (ranges : List CodePointRange) : CharSet :=
  inversionListToCharSet (rangesToInversionList (normalizeRanges (ranges.map Subtype.val)))
    (rangesToInversionList_spec fun _ h => by
      obtain ⟨range, -, rfl⟩ := List.mem_map.mp h
      exact range.property).1

section Names

-- the char-sets that the names stand for, which are made from tables of characters
variable (nameToCharSet : CharSetName → CharSet)

/-- The loop of `%cpl->char-sets`. -/
def cplToCharSetsLoop : List CplElement → List CodePointRange → List CharSet → List CharSet
  | [], ranges, charSets => rangesToCharSet ranges :: charSets
  | element :: cpl, ranges, charSets =>
      match cplElementToRanges element with
      | some ranges' => cplToCharSetsLoop cpl (ranges' ++ ranges) charSets
      | none =>
          match element with
          | .charSet charSet => cplToCharSetsLoop cpl ranges (charSet :: charSets)
          | .name name => cplToCharSetsLoop cpl ranges (nameToCharSet name :: charSets)
          | _ => cplToCharSetsLoop cpl ranges charSets -- not reached: the element had ranges

/-- `%cpl->char-sets` -/
def cplToCharSets (cpl : List CplElement) : List CharSet := cplToCharSetsLoop nameToCharSet cpl [] []

/-- `char-set*`, which is `char-set` with its arguments in a list. -/
def charSetStar (cpl : List CplElement) : CharSet := charSetUnion (cplToCharSets nameToCharSet cpl)

end Names

end MitScheme.Chrset
