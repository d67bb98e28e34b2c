import MitScheme.Runtime.ChrsetCodec

/-!
# Operations on inversion lists

The part of `chrset.scm` that combines, inverts and normalizes inversion lists: the combiner that
goes along two lists at once, the inverse of a list, the list of a procedure, and the list of any
ranges of code points.
-/

namespace MitScheme.Chrset

open InversionList

/-! ## The combiner -/

section Combiner

variable (combine : Bool → Bool → Bool)

/-- `process` in `make-inversion-list-combiner`. -/
def process (v start stop : Nat) (result : List Nat) : List Nat :=
  if start < stop ∧ combine (v &&& 1 == 1) (v &&& 2 == 2) then
    match result with
    | last :: start' :: rest =>
        if start = last then rcons start' stop rest else rcons start stop result
    | _ => rcons start stop result
  else result

/-- `tail` in `make-inversion-list-combiner`. -/
def combinerTail (vi : Nat) : Nat → Nat → List Nat → List Nat → List Nat
  | v, start, stop :: ilist, result =>
      combinerTail vi (v ^^^ vi) stop ilist (process combine v start stop result)
  | v, start, [], result =>
      (if start < charCodeLimit then process combine v start charCodeLimit result
      else result).reverse

/-- `loop` in `make-inversion-list-combiner`. -/
def combinerLoop (v start : Nat) (il1 il2 result : List Nat) : List Nat :=
  match il1, il2 with
  | [], il2 => combinerTail combine 2 v start il2 result
  | il1, [] => combinerTail combine 1 v start il1 result
  | b1 :: il1, b2 :: il2 =>
      let stop := min b1 b2
      let result := process combine v start stop result
      if b2 > stop then combinerLoop (v ^^^ 1) stop il1 (b2 :: il2) result
      else if b1 > stop then combinerLoop (v ^^^ 2) stop (b1 :: il1) il2 result
      else combinerLoop (v ^^^ 3) stop il1 il2 result
termination_by il1.length + il2.length

def makeInversionListCombiner (il1 il2 : List Nat) : List Nat := combinerLoop combine 0 0 il1 il2 []

end Combiner

def inversionListUnion : List Nat → List Nat → List Nat :=
  makeInversionListCombiner fun a b => a || b

def inversionListIntersection : List Nat → List Nat → List Nat :=
  makeInversionListCombiner fun a b => a && b

def inversionListDifference : List Nat → List Nat → List Nat :=
  makeInversionListCombiner fun a b => a && !b

/-- `loop` in `inversion-list-invert`. -/
def invertLoop : Nat → List Nat → List Nat → List Nat
  | start, stop :: start' :: ilist, inverse => invertLoop start' ilist (rcons start stop inverse)
  | start, _, inverse =>
      (if start < charCodeLimit then rcons start charCodeLimit inverse else inverse).reverse

def inversionListInvert : List Nat → List Nat
  | start :: stop :: ilist =>
      if 0 < start then invertLoop 0 (start :: stop :: ilist) [] else invertLoop stop ilist []
  | _ => []

/-- The list that `compute-char-set` makes. The surrogates are left out. -/
def computeInversionList (procedure : Nat → Bool) : List Nat :=
  (findStart procedure (0x110000 - 0xE000) 0xE000 (findStart procedure 0xD800 0 [])).reverse

/-- A range of code points: one code point, or a pair of the first one and the first one after. -/
inductive Range where
  | codePoint (cp : Nat)
  | pair (start stop : Nat)
deriving DecidableEq, Repr

namespace Range

/-- `%range?` -/
def IsRange : Range → Prop
  | codePoint cp => cp < charCodeLimit
  | pair start stop => stop ≤ 0x110000 ∧ start ≤ stop

/-- `%range-start` -/
def start : Range → Nat
  | codePoint cp => cp
  | pair start _ => start

/-- `%range-end` -/
def stop : Range → Nat
  | codePoint cp => cp + 1
  | pair _ stop => stop

/-- `%make-range` -/
def make (start stop : Nat) : Range := if stop - start = 1 then codePoint start else pair start stop

/-- `%range<?` -/
def less (range1 range2 : Range) : Bool :=
  range1.start < range2.start || (range1.start == range2.start && range1.stop < range2.stop)

end Range

/-- The loop of `normalize-ranges`, which joins ranges that meet. -/
def joinRanges : List Range → List Range
  | range1 :: range2 :: ranges =>
      if range1.stop < range2.start then range1 :: joinRanges (range2 :: ranges)
      else joinRanges (Range.make range1.start (max range1.stop range2.stop) :: ranges)
  | ranges => ranges
termination_by ranges => ranges.length

def normalizeRanges (ranges : List Range) : List Range :=
  joinRanges ((ranges.mergeSort fun range1 range2 => !range2.less range1).filter
    fun range => range.start < range.stop)

/-- The loop of `%ranges->char-set`. -/
def rangesToInversionListLoop : List Range → List Nat → List Nat
  | range :: ranges, ilist =>
      rangesToInversionListLoop ranges (rcons range.start range.stop ilist)
  | [], ilist => ilist.reverse

/-- The list that `%ranges->char-set` makes. -/
def rangesToInversionList (ranges : List Range) : List Nat := rangesToInversionListLoop ranges []

end MitScheme.Chrset
