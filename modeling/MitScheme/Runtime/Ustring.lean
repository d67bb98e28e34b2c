import MitScheme.Runtime.Normalization
import Mathlib.Algebra.Group.Nat.Defs

/-!
# Strings in bytes

The layout of the strings of `ustring.scm`: one, two or three bytes for each character, in objects that slices
refer to. What is stored is in little-endian order. Addresses are those of the objects, and the bytes of an
object are counted from `byte0-index`.

Only what the streaming builder does with strings is here. A byte that is out of range, or is stored outside of
an object, is an error.
-/

namespace MitScheme.StringBuilder

/-- The type of an object, and the flags that a Unicode string has. -/
inductive Kind where
  | legacy
  | unicode (cpSize : Nat) (inNfc inNfd : Bool)
  deriving DecidableEq

/-- A string that is no slice. -/
structure Object where
  kind : Kind
  length : Nat
  bytes : List Nat
  deriving DecidableEq

/-- `ustring-cp-size` -/
def Object.cpSize (o : Object) : Nat :=
  match o.kind with
  | .legacy => 1
  | .unicode cpSize _ _ => cpSize

/-- How many bytes a character has. The size of a mutable string is 0. -/
def width : Nat → Nat
  | 1 => 1
  | 2 => 2
  | _ => 3

namespace Object

def byteRef (o : Object) (i : Nat) : Option Nat := o.bytes[i]?

def byteSet (o : Object) (i byte : Nat) : Option Object :=
  if i < o.bytes.length ∧ byte < 0x100 then some { o with bytes := o.bytes.set i byte } else none

def cp1Ref (o : Object) (index : Nat) : Option Nat := o.byteRef index

def cp2Ref (o : Object) (index : Nat) : Option Nat := do
  let i := 2 * index
  return (← o.byteRef i) ||| (← o.byteRef (i + 1)) <<< 8

def cp3Ref (o : Object) (index : Nat) : Option Nat := do
  let i := 3 * index
  return (← o.byteRef i) ||| ((← o.byteRef (i + 1)) <<< 8 ||| (← o.byteRef (i + 2)) <<< 16)

def cp1Set (o : Object) (index cp : Nat) : Option Object := o.byteSet index cp

def cp3Set (o : Object) (index cp : Nat) : Option Object := do
  let i := 3 * index
  let o ← o.byteSet i (cp &&& 0xFF)
  let o ← o.byteSet (i + 1) ((cp >>> 8) &&& 0xFF)
  o.byteSet (i + 2) (cp >>> 16)

/-- The code point that `ustring-ref` makes a character of. -/
def cpRef (o : Object) (index : Nat) : Option Nat :=
  match o.cpSize with
  | 1 => o.cp1Ref index
  | 2 => o.cp2Ref index
  | _ => o.cp3Ref index

end Object

/-! ## Objects and slices -/

/-- The objects, and what is found in memory that is taken. -/
structure Heap where
  objects : List Object
  garbage : Nat → Nat

/-- A string: an object, or a slice of one. -/
inductive Ref where
  | object (address : Nat)
  | slice (address start length : Nat)
  deriving DecidableEq

namespace Heap

variable (heap : Heap)

/-- An object takes its place after the others. -/
def place (o : Object) : Nat × Heap :=
  (heap.objects.length, { heap with objects := heap.objects ++ [o] })

def store (address : Nat) (o : Object) : Heap := { heap with objects := heap.objects.set address o }

/-- Whole words are taken. -/
def takeBytes (nBytes : Nat) : List Nat :=
  (List.range (8 * ((nBytes + 7) >>> 3))).map fun i => heap.garbage i % 0x100

def ustringAllocate (nBytes length cpSize : Nat) : Object :=
  ⟨.unicode cpSize false false, length, heap.takeBytes nBytes⟩

def mutableUstringAllocate (n : Nat) : Object := heap.ustringAllocate (3 * n) n 0

def immutableUstringAllocate (n maxCp : Nat) : Option Object :=
  if maxCp < 0x100 then
    { heap.ustringAllocate (n + 1) n 1 with kind := .unicode 1 true (maxCp < 0xC0) }.cp1Set n 0
  else if maxCp < 0x10000 then
    some { heap.ustringAllocate (2 * n) n 2 with kind := .unicode 2 (maxCp < 0x300) false }
  else some (heap.ustringAllocate (3 * n) n 3)

def legacyStringAllocate (n : Nat) : Object := ⟨.legacy, n, heap.takeBytes (n + 1)⟩

def stringLength : Ref → Option Nat
  | .object address => (heap.objects[address]?).map Object.length
  | .slice _ _ length => some length

def unpackSlice : Ref → Option (Object × Nat × Nat)
  | .object address => (heap.objects[address]?).map fun o => (o, 0, o.length)
  | .slice address start length => (heap.objects[address]?).map fun o => (o, start, start + length)

/-- `string-slice`, with both indices given. -/
def stringSlice (string : Ref) (start stop : Nat) : Option Ref := do
  let length ← heap.stringLength string
  if ¬ (stop ≤ length ∧ start ≤ stop) then none
  else if start = 0 ∧ stop = length then return string
  else
    match string with
    | .slice address start' _ => return .slice address (start' + start) (stop - start)
    | .object address => return .slice address start (stop - start)

end Heap

/-- `copy!` of `%general-copy!` -/
def copyByte (source : Object) (j i o : Nat) (target : Object) : Option Object := do
  target.byteSet (j + o) (← source.byteRef (i + o))

/-- `zero!` of `%general-copy!` -/
def zeroByte (j o : Nat) (target : Object) : Option Object := target.byteSet (j + o) 0

/-- The body of each of the nine loops of `%general-copy!`, for the sizes of the source and the target. -/
def copyChar (fromSize toSize : Nat) (source : Object) (j i : Nat) (target : Object) : Option Object :=
  match fromSize, toSize with
  | 1, 1 => copyByte source j i 0 target
  | 1, 2 => copyByte source j i 0 target >>= zeroByte j 1
  | 1, _ => copyByte source j i 0 target >>= zeroByte j 1 >>= zeroByte j 2
  | 2, 1 => copyByte source j i 0 target
  | 2, 2 => copyByte source j i 0 target >>= copyByte source j i 1
  | 2, _ => copyByte source j i 0 target >>= copyByte source j i 1 >>= zeroByte j 2
  | _, 1 => copyByte source j i 0 target
  | _, 2 => copyByte source j i 0 target >>= copyByte source j i 1
  | _, _ => copyByte source j i 0 target >>= copyByte source j i 1 >>= copyByte source j i 2

/-- A loop of `%general-copy!`, with the number of characters that are left. -/
def copyLoop (fromSize toSize : Nat) (source : Object) : Nat → Nat → Nat → Object → Option Object
  | 0, _, _, target => some target
  | left + 1, i, j, target =>
      copyChar fromSize toSize source j i target >>=
        copyLoop fromSize toSize source left (i + width fromSize) (j + width toSize)

def generalCopy (target : Object) (at' : Nat) (source : Object) (start stop : Nat) : Option Object :=
  copyLoop source.cpSize target.cpSize source (stop - start) (width source.cpSize * start)
    (width target.cpSize * at') target

/-- The loop of `%general-max-cp`. -/
def maxLoop (source : Object) : Nat → Nat → Nat → Option Nat
  | 0, _, maxCp => some maxCp
  | left + 1, i, maxCp => do
      let cp ← source.cpRef i
      maxLoop source left (i + 1) (if cp > maxCp then cp else maxCp)

def generalMaxCp (source : Object) (start stop : Nat) : Option Nat :=
  maxLoop source (stop - start) start 0

end MitScheme.StringBuilder
