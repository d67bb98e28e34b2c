import MitScheme.Runtime.UstringProof

/-!
# The streaming builder

`string-builder` of `ustring.scm`: characters go to a buffer, strings are kept as they are, and what is in the
buffer before a string is a slice of it. A build copies all of them into one new string.

A world has a builder and the strings that the program around it knows: strings that it made, slices that it
took, and what was built. Making the NFC of a string is `Normalization`'s, for characters.
-/

namespace MitScheme.StringBuilder

open Normalization (Str Tables)

structure Builder where
  bufferLength : Nat
  buffers : List Ref
  buffer : Nat
  start : Nat
  index : Nat
  count : Nat
  maxCp : Nat

/-- `reset!`, which a builder begins with. -/
def reset (bufferLength : Nat) (heap : Heap) : Builder × Heap :=
  let (buffer, heap) := heap.place (heap.mutableUstringAllocate bufferLength)
  ({ bufferLength, buffers := [], buffer, start := 0, index := 0, count := 0, maxCp := 0 }, heap)

namespace Builder

variable (b : Builder)

def getPartial (heap : Heap) : Option Ref := heap.stringSlice (.object b.buffer) b.start b.index

def appendChar (char : Nat) (heap : Heap) : Option (Builder × Heap) := do
  let o ← (← heap.objects[b.buffer]?).cp3Set b.index char
  let heap := heap.store b.buffer o
  let b := { b with index := b.index + 1, count := b.count + 1, maxCp := max b.maxCp char }
  if b.index < b.bufferLength then return (b, heap)
  else
    let buffers := (← b.getPartial heap) :: b.buffers
    let (buffer, heap) := heap.place (heap.mutableUstringAllocate b.bufferLength)
    return ({ b with buffers, buffer, start := 0, index := 0 }, heap)

/-- The first step of `append-string!`. -/
def keepPartial (heap : Heap) : Option Builder :=
  if b.index > b.start then do
    let buffers := (← b.getPartial heap) :: b.buffers
    return { b with buffers, start := b.index }
  else some b

def appendString (string : Ref) (heap : Heap) : Option Builder := do
  let length ← heap.stringLength string
  if length > 0 then
    let b ← b.keepPartial heap
    let (o, start, stop) ← heap.unpackSlice string
    let maxCp ← generalMaxCp o start stop
    return { b with
      buffers := string :: b.buffers
      count := b.count + length
      maxCp := max b.maxCp maxCp }
  else return b

/-- What `build` passes on. -/
def strings (heap : Heap) : Option (List Ref) :=
  if b.index > b.start then do return ((← b.getPartial heap) :: b.buffers).reverse
  else some b.buffers.reverse

end Builder

/-! ## Building -/

def fillResult (heap : Heap) : List Ref → Nat → Object → Option Object
  | [], _, result => some result
  | string :: strings, i, result => do
      let (o, start, stop) ← heap.unpackSlice string
      let result ← generalCopy result i o start stop
      fillResult heap strings (i + (← heap.stringLength string)) result

/-- `build-string:immutable`, without its place in memory. -/
def buildStringImmutable (strings : List Ref) (count maxCp : Nat) (heap : Heap) : Option Object := do
  fillResult heap strings 0 (← heap.immutableUstringAllocate count maxCp)

def buildStringMutable (strings : List Ref) (count : Nat) (heap : Heap) : Option Object :=
  fillResult heap strings 0 (heap.mutableUstringAllocate count)

def buildStringLegacy (strings : List Ref) (count maxCp : Nat) (heap : Heap) : Option Object :=
  if maxCp < 0x100 then fillResult heap strings 0 (heap.legacyStringAllocate count) else none

/-- What an object is as a string. -/
def Object.view (o : Object) : Normalization.Ustring :=
  match o.kind with
  | .legacy => .legacy o.chars
  | .unicode cpSize inNfc inNfd => .ustring o.chars cpSize inNfc inNfd

/-- The bytes of a character. -/
def bytesOf (cpSize char : Nat) : List Nat :=
  match cpSize with
  | 1 => [char % 0x100]
  | 2 => [char % 0x100, char / 0x100 % 0x100]
  | _ => [char % 0x100, char / 0x100 % 0x100, char / 0x10000 % 0x100]

/-- The object of a string. -/
def encode : Normalization.Ustring → Object
  | .legacy chars => ⟨.legacy, chars.length, chars.flatMap (bytesOf 1)⟩
  | .ustring chars cpSize inNfc inNfd =>
      ⟨.unicode cpSize inNfc inNfd, chars.length, chars.flatMap (bytesOf cpSize)⟩

/-- A string that is made elsewhere. -/
def Heap.placeString (heap : Heap) : Str → Ref × Heap
  | .ustring string =>
      let (address, heap) := heap.place (encode string)
      (.object address, heap)
  | .slice string start length =>
      let (address, heap) := heap.place (encode string)
      (.slice address start length, heap)

/-- What a builder is asked for. -/
inductive Request where
  | nfc
  | immutable
  | mutable
  | legacy

/-- `build`, with one of the procedures that it is called with. -/
def build (T : Tables) (request : Request) (b : Builder) (heap : Heap) : Option (Ref × Heap) := do
  let strings ← b.strings heap
  let result ←
    match request with
    | .nfc | .immutable => buildStringImmutable strings b.count b.maxCp heap
    | .mutable => buildStringMutable strings b.count heap
    | .legacy => buildStringLegacy strings b.count b.maxCp heap
  let (address, heap) := heap.place result
  match request with
  | .nfc =>
      let string := Str.ustring result.view
      if Normalization.flaggedNfc string then return (.object address, heap)
      else return heap.placeString (Normalization.stringToNfc T string)
  | _ => return (.object address, heap)

structure World where
  heap : Heap
  builder : Builder
  known : List Ref

/-- An object that a string is made of. -/
abbrev StringObject := { o : Object // o.Valid }

/-- The steps of a program that uses a builder. Strings are named by when they became known. -/
inductive Op where
  | allocate (o : StringObject)
  | slice (k start stop : Nat)
  | appendChar (char : Nat)
  | appendString (k : Nat)
  | build (request : Request)
  | reset

def World.start (bufferLength : Nat) (garbage : Nat → Nat) : World :=
  let (builder, heap) := StringBuilder.reset bufferLength ⟨[], garbage⟩
  ⟨heap, builder, []⟩

/-- An operation, unless it is an error. -/
def World.perform (T : Tables) (w : World) : Op → Option World
  | .allocate o =>
      let (address, heap) := w.heap.place o
      some { w with heap, known := w.known ++ [.object address] }
  | .slice k start stop => do
      let string ← w.heap.stringSlice (← w.known[k]?) start stop
      return { w with known := w.known ++ [string] }
  | .appendChar char =>
      -- `bitless-char?`
      if char < 0x110000 then do
        let (builder, heap) ← w.builder.appendChar char w.heap
        return { w with builder, heap }
      else none
  | .appendString k => do
      let builder ← w.builder.appendString (← w.known[k]?) w.heap
      return { w with builder }
  | .build request => do
      let (string, heap) ← StringBuilder.build T request w.builder w.heap
      return { w with heap, known := w.known ++ [string] }
  | .reset =>
      let (builder, heap) := StringBuilder.reset w.builder.bufferLength w.heap
      some { w with builder, heap }

def World.performAll (T : Tables) : World → List Op → Option World
  | w, [] => some w
  | w, op :: ops => (w.perform T op).bind fun w => performAll T w ops

end MitScheme.StringBuilder
