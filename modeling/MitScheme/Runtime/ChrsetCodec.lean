import MitScheme.Runtime.Bytevector
import MitScheme.Lib.InversionLists

/-!
# Inversion-list codecs

The part of `chrset.scm` that stores an inversion list in two bytevectors, and reads it back. The
low bytevector has a bit for each code point below a limit, and the high one has the boundaries
from the limit on, in three bytes each. The limit is the one for which the two take least room.

All indices are inside of the bytevectors they are used with, and what is stored in a byte fits
there, so the operations on bytes have no error cases here.
-/

namespace MitScheme.Chrset

open Codec

/-- `char-code-limit`, which `chrset.scm` writes as a number. -/
abbrev charCodeLimit : Nat := 0x110000

def bytevectorU8Ref (bytevector : Bytevector) (index : Nat) : Nat :=
  (bytevector.getD index 0).toNat

def bytevectorU8Set (bytevector : Bytevector) (index byte : Nat) : Bytevector :=
  bytevector.set index (UInt8.ofNat byte)

def lowCpsPerByte : Nat := 8

def makeLow (lowLimit : Nat) : Bytevector := List.replicate (lowLimit / lowCpsPerByte) 0

def lowLimit (low : Bytevector) : Nat := low.length <<< 3

def lowRef (low : Bytevector) (cp : Nat) : Bool :=
  bytevectorU8Ref low (cp >>> 3) &&& (1 <<< (cp &&& 7)) != 0

def lowSet (low : Bytevector) (cp : Nat) : Bytevector :=
  bytevectorU8Set low (cp >>> 3) (bytevectorU8Ref low (cp >>> 3) ||| (1 <<< (cp &&& 7)))

def highBytesPerCp : Nat := 3

def makeHigh (nCps : Nat) : Bytevector := allocateBytevector (nCps * highBytesPerCp)

def highLength (high : Bytevector) : Nat := high.length / highBytesPerCp

def highRef (high : Bytevector) (index : Nat) : Nat :=
  let i := index * highBytesPerCp
  bytevectorU8Ref high i
    + (bytevectorU8Ref high (i + 1) <<< 8 + bytevectorU8Ref high (i + 2) <<< 16)

def highSet (high : Bytevector) (index cp : Nat) : Bytevector :=
  let i := index * highBytesPerCp
  let high := bytevectorU8Set high i (cp &&& 0xFF)
  let high := bytevectorU8Set high (i + 1) ((cp >>> 8) &&& 0xFF)
  bytevectorU8Set high (i + 2) (cp >>> 16)

/-! ## Inversion lists -/

def rcons (start stop : Nat) (ilist : List Nat) : List Nat := stop :: start :: ilist

/-- The loop of `%estimate-size`. -/
def estimateSizeLoop (minCp : Nat) : List Nat → Nat
  | start :: stop :: ilist =>
      if stop < minCp then estimateSizeLoop minCp ilist
      else (start :: stop :: ilist).length * highBytesPerCp
  | _ => 0

def estimateSize (lowBytes : Nat) (ilist : List Nat) : Nat :=
  lowBytes + estimateSizeLoop (lowBytes * lowCpsPerByte) ilist

/-- The loop of `%choose-low-limit`, which is entered with 1 and doubles the number of bytes, so
that the fuel need not be more than the largest number. -/
def chooseLowLimitLoop (ilist : List Nat) (maxLowBytes : Nat) : Nat → Nat → Nat → Nat → Nat
  | 0, _, bestLowBytes, _ => bestLowBytes * lowCpsPerByte
  | fuel + 1, lowBytes, bestLowBytes, bestTotalBytes =>
      if lowBytes < maxLowBytes then
        let totalBytes := estimateSize lowBytes ilist
        if totalBytes < bestTotalBytes then
          chooseLowLimitLoop ilist maxLowBytes fuel (lowBytes <<< 1) lowBytes totalBytes
        else chooseLowLimitLoop ilist maxLowBytes fuel (lowBytes <<< 1) bestLowBytes bestTotalBytes
      else bestLowBytes * lowCpsPerByte

def chooseLowLimit (ilist : List Nat) : Nat :=
  let maxLowBytes := charCodeLimit / highBytesPerCp
  chooseLowLimitLoop ilist maxLowBytes maxLowBytes 1 0 (estimateSize 0 ilist)

/-- `set-range!` in `%inversion-list->low`. -/
def setRange (low : Bytevector) (start stop : Nat) : Bytevector :=
  (List.range' start (stop - start)).foldl lowSet low

/-- `loop` in `%inversion-list->low`. -/
def inversionListToLowLoop (lowLimit : Nat) : Bytevector → List Nat → Bytevector
  | low, start :: stop :: ilist =>
      if stop ≤ lowLimit then inversionListToLowLoop lowLimit (setRange low start stop) ilist
      else if start < lowLimit then setRange low start lowLimit
      else low
  | low, _ => low

/-- `%inversion-list->low` -/
def inversionListToLow (ilist : List Nat) (lowLimit : Nat) : Bytevector :=
  inversionListToLowLoop lowLimit (makeLow lowLimit) ilist

/-- `skip-low` in `%inversion-list->high`. -/
def skipLow (lowLimit : Nat) : List Nat → List Nat
  | start :: stop :: ilist =>
      if stop ≤ lowLimit then skipLow lowLimit ilist
      else if start < lowLimit then lowLimit :: stop :: ilist
      else start :: stop :: ilist
  | _ => []

/-- The `do` loop of `%inversion-list->high`. -/
def setHigh : Bytevector → Nat → List Nat → Bytevector
  | high, i, cp :: ilist => setHigh (highSet high i cp) (i + 1) ilist
  | high, _, [] => high

/-- `%inversion-list->high` -/
def inversionListToHigh (ilist : List Nat) (lowLimit : Nat) : Bytevector :=
  let ilist := skipLow lowLimit ilist
  setHigh (makeHigh ilist.length) 0 ilist

mutual

/-- `find-start`, of `%low->inversion-list` and of `compute-char-set`, which look through as many
code points as are left for those that the procedure accepts. -/
def findStart (procedure : Nat → Bool) : Nat → Nat → List Nat → List Nat
  | 0, _, result => result
  | left + 1, i, result =>
      if procedure i then findEnd procedure left i (i + 1) result
      else findStart procedure left (i + 1) result

/-- `find-end`. That of `%low->inversion-list` goes back to `find-start` with a code point that is
not accepted, which is passed over here as in `compute-char-set`. -/
def findEnd (procedure : Nat → Bool) : Nat → Nat → Nat → List Nat → List Nat
  | 0, start, i, result => rcons start i result
  | left + 1, start, i, result =>
      if procedure i then findEnd procedure left start (i + 1) result
      else findStart procedure left (i + 1) (rcons start i result)

end

/-- `%low->inversion-list` -/
def lowToInversionList (low : Bytevector) : List Nat :=
  findStart (lowRef low) (lowLimit low) 0 []

/-- `loop` in `%high->inversion-list`, with the number of boundaries that are left. -/
def highToInversionListLoop (high : Bytevector) : Nat → Nat → List Nat → List Nat
  | 0, _, result => result
  | left + 1, i, result => highToInversionListLoop high left (i + 1) (highRef high i :: result)

/-- `%high->inversion-list` -/
def highToInversionList (high : Bytevector) (result : List Nat) : List Nat :=
  let n := highLength high
  match result with
  | stop :: rest =>
      if n > 0 ∧ highRef high 0 = stop then highToInversionListLoop high (n - 1) 1 rest
      else highToInversionListLoop high n 0 result
  | [] => highToInversionListLoop high n 0 result

/-- What `%char-set->inversion-list` makes of the low and the high bytevector. -/
def bytesToInversionList (low high : Bytevector) : List Nat :=
  (highToInversionList high (lowToInversionList low)).reverse

/-- The loop of `%code-point-in-char-set?`, which looks for the range that has the code point among
those between two boundaries. Each turn halves the number of ranges. -/
def searchHigh (high : Bytevector) (cp : Nat) : Nat → Nat → Nat → Bool
  | 0, _, _ => false
  | fuel + 1, lower, upper =>
      if lower < upper then
        let i := 2 * ((lower + upper) / 4)
        if cp < highRef high i then searchHigh high cp fuel lower i
        else if cp ≥ highRef high (i + 1) then searchHigh high cp fuel (i + 2) upper
        else true
      else false

/-- What `%code-point-in-char-set?` finds in the low and the high bytevector. -/
def codePointInBytes (cp : Nat) (low high : Bytevector) : Bool :=
  if cp < lowLimit low then lowRef low cp
  else searchHigh high cp (highLength high) 0 (highLength high)

end MitScheme.Chrset
