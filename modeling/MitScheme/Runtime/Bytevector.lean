import MitScheme.Lib.Reading

/-!
# Bytevectors

The parts of `bytevector.scm` that read and write units of one, two and four bytes, and the loops
that turn strings into bytevectors and back. A character is its code point, a string is a list of
characters, and a string builder gives the characters in the order in which it got them: how it
normalizes them in the end is not looked at.

Fixnums are natural numbers, since none of these computations leaves their range.
-/

namespace MitScheme.Codec

open Reading

/-- The errors that are signalled, with what they report. -/
inductive Error where
  /-- `error` -/
  | simple (message : String) (irritants : List Nat)
  /-- `error:bad-range-argument` -/
  | badRangeArgument (object : Nat) (caller : String)
  /-- `error:not-a` -/
  | notA (description : String) (object : Nat) (caller : String)
  /-- The index is the unspecific object, which is not a fixnum. -/
  | unspecificIndex
deriving DecidableEq

def guarantee (predicate : Nat → Bool) (description : String) (object : Nat) (caller : String) :
    Except Error Unit :=
  if predicate object then .ok () else .error (.notA description object caller)

/-- The error that a computation signals without reading anything. -/
def lift {α : Type} (x : Except Error α) : Reading Error α := ⟨[], x⟩

/-- `fix:lsh`, to the right if the shift is negative. -/
def fixLsh (n : Nat) : Int → Nat
  | .ofNat k => n <<< k
  | .negSucc k => n >>> (k + 1)

def fixEndIndex (stop : Option Nat) (length : Nat) (caller : String) : Except Error Nat :=
  match stop with
  | none => .ok length
  | some stop => if stop ≤ length then .ok stop else .error (.badRangeArgument stop caller)

def fixStartIndex (start : Option Nat) (stop : Nat) (caller : String) : Except Error Nat :=
  match start with
  | none => .ok 0
  | some start => if start ≤ stop then .ok start else .error (.badRangeArgument start caller)

abbrev Bytevector := List UInt8

/-- `allocate-bytevector`. What the bytes are before they are set does not matter. -/
def allocateBytevector (k : Nat) : Bytevector := List.replicate k 0

def bytevectorU8Ref (bytevector : Bytevector) (index : Nat) : Reading Error Nat :=
  match bytevector[index]? with
  | some byte => ⟨[index], .ok byte.toNat⟩
  | none => fail (.badRangeArgument index "bytevector-u8-ref")

def bytevectorU8Set (bytevector : Bytevector) (index : Nat) (byte : Nat) :
    Except Error Bytevector :=
  if index < bytevector.length then
    if byte < 0x100 then .ok (bytevector.set index (UInt8.ofNat byte))
    else .error (.notA "byte" byte "bytevector-u8-set!")
  else .error (.badRangeArgument index "bytevector-u8-set!")

/-- `bytevector-copy`, of a part that is there. -/
def bytevectorCopy (bytevector : Bytevector) (start stop : Nat) : Reading Error (List Nat) :=
  ⟨List.range' start (stop - start),
    .ok (((bytevector.drop start).take (stop - start)).map UInt8.toNat)⟩

/-- `bytes->u16be` -/
def bytesToU16be (b0 b1 : Nat) : Nat := fixLsh b0 8 ||| b1

/-- `bytes->u16le` -/
def bytesToU16le (b0 b1 : Nat) : Nat := b0 ||| fixLsh b1 8

/-- `u16?` -/
def u16P (object : Nat) : Bool := decide (object < 0x10000)

/-- The accessors of either byte order. -/
def bytevectorU16Ref (bytesToU16 : Nat → Nat → Nat) (caller : String) (bytevector : Bytevector)
    (index : Nat) : Reading Error Nat :=
  if index + 1 < bytevector.length then do
    let b0 ← bytevectorU8Ref bytevector index
    let b1 ← bytevectorU8Ref bytevector (index + 1)
    return bytesToU16 b0 b1
  else fail (.badRangeArgument index caller)

def bytevectorU16beRef : Bytevector → Nat → Reading Error Nat :=
  bytevectorU16Ref bytesToU16be "bytevector-u16be-ref"

def bytevectorU16leRef : Bytevector → Nat → Reading Error Nat :=
  bytevectorU16Ref bytesToU16le "bytevector-u16le-ref"

/-- The modifiers of either byte order, which signal range errors in the name of the
accessor. -/
def bytevectorU16Set (byte0 byte1 : Nat → Nat) (rangeCaller caller : String)
    (bytevector : Bytevector) (index u16 : Nat) : Except Error Bytevector :=
  if index + 1 < bytevector.length then do
    guarantee u16P "u16" u16 caller
    let bytevector ← bytevectorU8Set bytevector index (byte0 u16)
    bytevectorU8Set bytevector (index + 1) (byte1 u16)
  else .error (.badRangeArgument index rangeCaller)

def bytevectorU16beSet : Bytevector → Nat → Nat → Except Error Bytevector :=
  bytevectorU16Set (fun u16 => fixLsh u16 (-8)) (fun u16 => u16 &&& 0xFF)
    "bytevector-u16be-ref" "bytevector-u16be-set!"

def bytevectorU16leSet : Bytevector → Nat → Nat → Except Error Bytevector :=
  bytevectorU16Set (fun u16 => u16 &&& 0xFF) (fun u16 => fixLsh u16 (-8))
    "bytevector-u16le-ref" "bytevector-u16le-set!"

/-- `bytes->u32be` -/
def bytesToU32be (b0 b1 b2 b3 : Nat) : Nat :=
  (fixLsh b0 24 ||| fixLsh b1 16) ||| (fixLsh b2 8 ||| b3)

/-- `bytes->u32le` -/
def bytesToU32le (b0 b1 b2 b3 : Nat) : Nat := bytesToU32be b3 b2 b1 b0

def u32beByte0 (u32 : Nat) : Nat := fixLsh u32 (-24)

def u32beByte1 (u32 : Nat) : Nat := fixLsh u32 (-16) &&& 0xFF

def u32beByte2 (u32 : Nat) : Nat := fixLsh u32 (-8) &&& 0xFF

def u32beByte3 (u32 : Nat) : Nat := u32 &&& 0xFF

/-- `u32?` -/
def u32P (object : Nat) : Bool := decide (object ≤ 0xFFFFFFFF)

/-- The accessors of either byte order. -/
def bytevectorU32Ref (bytesToU32 : Nat → Nat → Nat → Nat → Nat) (caller : String)
    (bytevector : Bytevector) (index : Nat) : Reading Error Nat :=
  if index + 3 < bytevector.length then do
    let b0 ← bytevectorU8Ref bytevector index
    let b1 ← bytevectorU8Ref bytevector (index + 1)
    let b2 ← bytevectorU8Ref bytevector (index + 2)
    let b3 ← bytevectorU8Ref bytevector (index + 3)
    return bytesToU32 b0 b1 b2 b3
  else fail (.badRangeArgument index caller)

def bytevectorU32beRef : Bytevector → Nat → Reading Error Nat :=
  bytevectorU32Ref bytesToU32be "bytevector-u32be-ref"

def bytevectorU32leRef : Bytevector → Nat → Reading Error Nat :=
  bytevectorU32Ref bytesToU32le "bytevector-u32le-ref"

/-- The modifiers of either byte order. -/
def bytevectorU32Set (byte0 byte1 byte2 byte3 : Nat → Nat) (rangeCaller caller : String)
    (bytevector : Bytevector) (index u32 : Nat) : Except Error Bytevector :=
  if index + 3 < bytevector.length then do
    guarantee u32P "u32" u32 caller
    let bytevector ← bytevectorU8Set bytevector index (byte0 u32)
    let bytevector ← bytevectorU8Set bytevector (index + 1) (byte1 u32)
    let bytevector ← bytevectorU8Set bytevector (index + 2) (byte2 u32)
    bytevectorU8Set bytevector (index + 3) (byte3 u32)
  else .error (.badRangeArgument index rangeCaller)

def bytevectorU32beSet : Bytevector → Nat → Nat → Except Error Bytevector :=
  bytevectorU32Set u32beByte0 u32beByte1 u32beByte2 u32beByte3
    "bytevector-u32be-ref" "bytevector-u32be-set!"

def bytevectorU32leSet : Bytevector → Nat → Nat → Except Error Bytevector :=
  bytevectorU32Set u32beByte3 u32beByte2 u32beByte1 u32beByte0
    "bytevector-u32le-ref" "bytevector-u32le-set!"

/-! ## Strings -/

/-- The characters of a string between two indices. -/
def substring (string : List Nat) (start stop : Nat) : List Nat :=
  (string.drop start).take (stop - start)

section

variable (charByteLength : Nat → Except Error Nat)
  (encodeChar : Bytevector → Nat → Nat → Except Error (Bytevector × Option Nat))

/-- The loop of `string-encoder` that counts the bytes. -/
def countBytes : List Nat → Nat → Except Error Nat
  | [], nBytes => .ok nBytes
  | char :: chars, nBytes => do countBytes chars (nBytes + (← charByteLength char))

/-- The loop of `string-encoder` that sets them. The index for the next character is what the
encoder of this one returns, or none if that is the unspecific object. -/
def encodeChars : List Nat → Bytevector → Option Nat → Except Error Bytevector
  | [], bytes, _ => .ok bytes
  | _ :: _, _, none => .error .unspecificIndex
  | char :: chars, bytes, some index => do
      let (bytes, index') ← encodeChar bytes index char
      encodeChars chars bytes index'

def stringEncoder (caller : String) (string : List Nat) (start stop : Option Nat) :
    Except Error Bytevector := do
  let stop ← fixEndIndex stop string.length caller
  let start ← fixStartIndex start stop caller
  let chars := substring string start stop
  let nBytes ← countBytes charByteLength chars 0
  encodeChars encodeChar chars (allocateBytevector nBytes) (some 0)

end

section

variable (getter : Bytevector → Nat → Reading Error Nat)
  (initialToLength : Nat → Except Error Nat) (decodeChar : Bytevector → Nat → Reading Error Nat)
  (step : Nat) (noun : String) (bytevector : Bytevector)

/-- The error of `bytes-decoder` where a sequence ends too early. -/
def truncated {α : Type} (stop index : Nat) : Reading Error α := do
  let bytes ← bytevectorCopy bytevector index (min (index + 4) stop)
  fail (.simple ("Truncated " ++ noun ++ " sequence:") bytes)

/-- One turn of the loop of `bytes-decoder`: a character, and the index after it. -/
def decodeNext (stop index : Nat) : Reading Error (Nat × Nat) := do
  let n ← lift (initialToLength (← getter bytevector index))
  let index' := index + n
  if index' ≤ stop then return (← decodeChar bytevector index, index')
  else truncated noun bytevector stop index

/-- The loop of `bytes-decoder`. Each turn takes at least one byte, so that there are no more turns
than bytes. -/
def decodeChars (stop : Nat) : Nat → Nat → Reading Error (List Nat)
  | 0, _ => pure []
  | turns + 1, index =>
      if index + step ≤ stop then do
        let (char, index') ←
          decodeNext getter initialToLength decodeChar noun bytevector stop index
        return char :: (← decodeChars stop turns index')
      else if index < stop then truncated noun bytevector stop index
      else pure []

def bytesDecoder (caller : String) (start stop : Option Nat) : Reading Error (List Nat) := do
  let stop ← lift (fixEndIndex stop bytevector.length caller)
  let start ← lift (fixStartIndex start stop caller)
  decodeChars getter initialToLength decodeChar step noun bytevector stop (stop - start) start

end

end MitScheme.Codec
