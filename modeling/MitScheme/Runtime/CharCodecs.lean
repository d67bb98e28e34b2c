import MitScheme.Runtime.Bytevector

/-!
# Character codecs

The encoders and decoders of `char.scm` for UTF-8, UTF-16 and UTF-32, and the procedures between
strings and bytevectors that `bytevector.scm` makes of them.
-/

namespace MitScheme.Codec

open Reading

def charCodeLimit : Nat := 0x110000

def utf16Surrogate (cp : Nat) : Bool := decide (0xD800 = 0xF800 &&& cp)

def utf16HighSurrogate (cp : Nat) : Bool := decide (0xD800 = 0xFC00 &&& cp)

def utf16LowSurrogate (cp : Nat) : Bool := decide (0xDC00 = 0xFC00 &&& cp)

def unicodeScalarValue (object : Nat) : Bool :=
  decide (object < charCodeLimit) && !utf16Surrogate object

/-- `%char->scalar-value` -/
def charToScalarValue (char : Nat) (caller : String) : Except Error Nat := do
  guarantee unicodeScalarValue "a Unicode scalar value" char caller
  return char

def extractBits (word mask : Nat) (shift : Int) : Nat := fixLsh (word &&& mask) shift

def insertBits (word mask : Nat) (shift : Int) : Nat := fixLsh word shift &&& mask

/-! ## Encoders -/

def charUtf8ByteLength (char : Nat) : Except Error Nat := do
  let sv ← charToScalarValue char "char-utf8-byte-length"
  return if sv < 0x80 then 1 else if sv < 0x800 then 2 else if sv < 0x10000 then 3 else 4

/-- `initial-byte`, within `encode-utf8-char!`. -/
def initialByte (sv leader : Nat) (offset : Int) : Nat := leader ||| fixLsh sv offset

/-- `trailing-byte`, within `encode-utf8-char!`. -/
def trailingByte (sv : Nat) (offset : Int) : Nat := 0x80 ||| insertBits sv 0x3F offset

def encodeUtf8Char (bytes : Bytevector) (index char : Nat) :
    Except Error (Bytevector × Option Nat) := do
  let sv ← charToScalarValue char "encode-utf8-char!"
  if sv < 0x80 then do
    let bytes ← bytevectorU8Set bytes index sv
    return (bytes, some (index + 1))
  else if sv < 0x800 then do
    let bytes ← bytevectorU8Set bytes index (initialByte sv 0xC0 (-6))
    let bytes ← bytevectorU8Set bytes (index + 1) (trailingByte sv 0)
    return (bytes, some (index + 2))
  else if sv < 0x10000 then do
    let bytes ← bytevectorU8Set bytes index (initialByte sv 0xE0 (-12))
    let bytes ← bytevectorU8Set bytes (index + 1) (trailingByte sv (-6))
    let bytes ← bytevectorU8Set bytes (index + 2) (trailingByte sv 0)
    return (bytes, some (index + 3))
  else do
    let bytes ← bytevectorU8Set bytes index (initialByte sv 0xF0 (-18))
    let bytes ← bytevectorU8Set bytes (index + 1) (trailingByte sv (-12))
    let bytes ← bytevectorU8Set bytes (index + 2) (trailingByte sv (-6))
    let bytes ← bytevectorU8Set bytes (index + 3) (trailingByte sv 0)
    return (bytes, some (index + 4))

def charUtf16ByteLength (char : Nat) : Except Error Nat := do
  let sv ← charToScalarValue char "char-utf16-byte-length"
  return if sv < 0x10000 then 2 else 4

def utf16CharEncoder (setter : Bytevector → Nat → Nat → Except Error Bytevector)
    (caller : String) (bytes : Bytevector) (index char : Nat) :
    Except Error (Bytevector × Option Nat) := do
  let sv ← charToScalarValue char caller
  if sv < 0x10000 then do
    let bytes ← setter bytes index sv
    return (bytes, some (index + 2))
  else do
    let n := sv - 0x10000
    let bytes ← setter bytes index (0xD800 ||| insertBits n 0x3FF (-10))
    let bytes ← setter bytes (index + 2) (0xDC00 ||| insertBits n 0x3FF 0)
    return (bytes, some (index + 4))

def charUtf32ByteLength (char : Nat) : Except Error Nat := do
  let _ ← charToScalarValue char "char-utf32-byte-length"
  return 4

/-- `utf32-char-encoder`, which returns what the modifier returns: the unspecific object. -/
def utf32CharEncoder (setter : Bytevector → Nat → Nat → Except Error Bytevector)
    (caller : String) (bytes : Bytevector) (index char : Nat) :
    Except Error (Bytevector × Option Nat) := do
  let sv ← charToScalarValue char caller
  let bytes ← setter bytes index sv
  return (bytes, none)

/-- `u8:80..8F?` -/
def u80To8F (byte : Nat) : Bool := decide (0x80 = 0xF0 &&& byte)

/-- `u8:80..9F?` -/
def u80To9F (byte : Nat) : Bool := decide (0x80 = 0xE0 &&& byte)

/-- `u8:80..BF?` -/
def u80ToBF (byte : Nat) : Bool := decide (0x80 = 0xC0 &&& byte)

/-- `u8:90..BF?` -/
def u90ToBF (byte : Nat) : Bool := decide (byte ≥ 0x90) && decide (byte ≤ 0xBF)

/-- `u8:A0..BF?` -/
def uA0ToBF (byte : Nat) : Bool := decide (byte ≥ 0xA0) && decide (byte ≤ 0xBF)

def utf8InitialByte1 (byte : Nat) : Bool := decide (0x00 = 0x80 &&& byte)

def utf8InitialByte2 (byte : Nat) : Bool := decide (byte ≥ 0xC2) && decide (byte ≤ 0xDF)

def utf8InitialByte3 (byte : Nat) : Bool := decide (0xE0 = 0xF0 &&& byte)

def utf8InitialByte4 (byte : Nat) : Bool := decide (byte ≥ 0xF0) && decide (byte ≤ 0xF4)

def validUtf8Sequence2 (b0 b1 : Nat) : Bool := utf8InitialByte2 b0 && u80ToBF b1

def validUtf8Sequence3 (b0 b1 b2 : Nat) : Bool :=
  utf8InitialByte3 b0
    && (if b0 = 0xE0 then uA0ToBF b1
      else if b0 < 0xED then u80ToBF b1
      else if b0 = 0xED then u80To9F b1
      else u80ToBF b1)
    && u80ToBF b2

def validUtf8Sequence4 (b0 b1 b2 b3 : Nat) : Bool :=
  utf8InitialByte4 b0
    && (if b0 = 0xF0 then u90ToBF b1
      else if b0 < 0xF4 then u80ToBF b1
      else u80To8F b1)
    && u80ToBF b2
    && u80ToBF b3

/-! ## Decoders -/

/-- `initial-byte->utf8-char-length` -/
def initialByteToUtf8CharLength (b0 : Nat) : Except Error Nat := do
  guarantee (fun b0 => decide (b0 < 0x100)) "u8" b0 "initial-byte->utf8-char-length"
  if utf8InitialByte1 b0 then return 1
  else if utf8InitialByte2 b0 then return 2
  else if utf8InitialByte3 b0 then return 3
  else if utf8InitialByte4 b0 then return 4
  else .error (.simple "Illegal UTF-8 initial byte:" [b0])

def decodeUtf8Char (bytes : Bytevector) (index : Nat) : Reading Error Nat := do
  let b0 ← bytevectorU8Ref bytes index
  if utf8InitialByte1 b0 then return b0
  else if utf8InitialByte2 b0 then do
    let b1 ← bytevectorU8Ref bytes (index + 1)
    if validUtf8Sequence2 b0 b1 then
      return extractBits b0 0x1F 6 ||| extractBits b1 0x3F 0
    else fail (.simple "Ill-formed UTF-8 sequence:" [b0, b1])
  else if utf8InitialByte3 b0 then do
    let b1 ← bytevectorU8Ref bytes (index + 1)
    let b2 ← bytevectorU8Ref bytes (index + 2)
    if validUtf8Sequence3 b0 b1 b2 then
      return (extractBits b0 0x0F 12 ||| extractBits b1 0x3F 6) ||| extractBits b2 0x3F 0
    else fail (.simple "Ill-formed UTF-8 sequence:" [b0, b1, b2])
  else if utf8InitialByte4 b0 then do
    let b1 ← bytevectorU8Ref bytes (index + 1)
    let b2 ← bytevectorU8Ref bytes (index + 2)
    let b3 ← bytevectorU8Ref bytes (index + 3)
    if validUtf8Sequence4 b0 b1 b2 b3 then
      return (extractBits b0 0x07 18 ||| extractBits b1 0x3F 12)
        ||| (extractBits b2 0x3F 6 ||| extractBits b3 0x3F 0)
    else fail (.simple "Ill-formed UTF-8 sequence:" [b0, b1, b2, b3])
  else fail (.simple "Illegal UTF-8 initial byte:" [b0])

/-- `initial-u16->utf16-char-length` -/
def initialU16ToUtf16CharLength (u16 : Nat) : Except Error Nat := do
  guarantee u16P "u16" u16 "initial-u16->utf16-char-length"
  if utf16LowSurrogate u16 then .error (.simple "Illegal initial UTF-16 unit:" [u16])
  else if utf16HighSurrogate u16 then return 4
  else return 2

def utf16CharDecoder (getter : Bytevector → Nat → Reading Error Nat) (bytes : Bytevector)
    (index : Nat) : Reading Error Nat := do
  let d0 ← getter bytes index
  if utf16LowSurrogate d0 then fail (.simple "Illegal initial UTF-16 unit:" [d0])
  else if utf16HighSurrogate d0 then do
    let d1 ← getter bytes (index + 2)
    if utf16LowSurrogate d1 then
      return (extractBits d0 0x3FF 10 ||| extractBits d1 0x3FF 0) + 0x10000
    else fail (.simple "Ill-formed UTF-16 sequence:" [d0, d1])
  else return d0

/-- `initial-u32->utf32-char-length` -/
def initialU32ToUtf32CharLength (u32 : Nat) : Except Error Nat := do
  guarantee unicodeScalarValue "a Unicode scalar value" u32 "initial-u32->utf32-char-length"
  return 4

def utf32CharDecoder (getter : Bytevector → Nat → Reading Error Nat) (bytes : Bytevector)
    (index : Nat) : Reading Error Nat := do
  let u32 ← getter bytes index
  lift (guarantee unicodeScalarValue "a Unicode scalar value" u32 "utf32-char-decoder")
  return u32

/-- The `next-char-length` procedures: with fewer bytes than `step`, there is no length. -/
def nextCharLength (getter : Bytevector → Nat → Reading Error Nat)
    (initialToLength : Nat → Except Error Nat) (step : Nat) (bv : Bytevector) (bs be : Nat) :
    Reading Error (Option Nat) :=
  if bs + step ≤ be then do
    let n ← lift (initialToLength (← getter bv bs))
    return some n
  else pure none

def nextCharLengthUtf8 : Bytevector → Nat → Nat → Reading Error (Option Nat) :=
  nextCharLength bytevectorU8Ref initialByteToUtf8CharLength 1

def nextCharLengthUtf16le : Bytevector → Nat → Nat → Reading Error (Option Nat) :=
  nextCharLength bytevectorU16leRef initialU16ToUtf16CharLength 2

def nextCharLengthUtf16be : Bytevector → Nat → Nat → Reading Error (Option Nat) :=
  nextCharLength bytevectorU16beRef initialU16ToUtf16CharLength 2

def nextCharLengthUtf32le : Bytevector → Nat → Nat → Reading Error (Option Nat) :=
  nextCharLength bytevectorU32leRef initialU32ToUtf32CharLength 2

def nextCharLengthUtf32be : Bytevector → Nat → Nat → Reading Error (Option Nat) :=
  nextCharLength bytevectorU32beRef initialU32ToUtf32CharLength 2

/-- The decoder that `unicode-codec` makes. What it gives to its continuation is the character,
or none, and an index. -/
def unicodeCodecDecoder (nextCharLength : Bytevector → Nat → Nat → Reading Error (Option Nat))
    (decodeChar : Bytevector → Nat → Reading Error Nat) (bv : Bytevector) (bs be : Nat) :
    Reading Error (Option Nat × Nat) := do
  match ← nextCharLength bv bs be with
  | none => return (none, bs)
  | some n =>
      let bs' := bs + n
      if bs' ≤ be then return (some (← decodeChar bv bs), bs')
      else return (none, bs')

/-- `string->utf8` -/
def stringToUtf8 : List Nat → Option Nat → Option Nat → Except Error Bytevector :=
  stringEncoder charUtf8ByteLength encodeUtf8Char "string->utf8"

/-- `string->utf16be` -/
def stringToUtf16be : List Nat → Option Nat → Option Nat → Except Error Bytevector :=
  stringEncoder charUtf16ByteLength (utf16CharEncoder bytevectorU16beSet "encode-utf16be-char!")
    "string->utf16be"

/-- `string->utf16le` -/
def stringToUtf16le : List Nat → Option Nat → Option Nat → Except Error Bytevector :=
  stringEncoder charUtf16ByteLength (utf16CharEncoder bytevectorU16leSet "encode-utf16le-char!")
    "string->utf16le"

/-- `string->utf32be` -/
def stringToUtf32be : List Nat → Option Nat → Option Nat → Except Error Bytevector :=
  stringEncoder charUtf32ByteLength (utf32CharEncoder bytevectorU32beSet "encode-utf32be-char!")
    "string->utf32be"

/-- `string->utf32le` -/
def stringToUtf32le : List Nat → Option Nat → Option Nat → Except Error Bytevector :=
  stringEncoder charUtf32ByteLength (utf32CharEncoder bytevectorU32leSet "encode-utf32le-char!")
    "string->utf32le"

/-- `utf8->string` -/
def utf8ToString : Bytevector → Option Nat → Option Nat → Reading Error (List Nat) := fun bytes =>
  bytesDecoder bytevectorU8Ref initialByteToUtf8CharLength decodeUtf8Char 1 "UTF-8" bytes
    "utf8->string"

/-- `utf16be->string` -/
def utf16beToString : Bytevector → Option Nat → Option Nat → Reading Error (List Nat) :=
  fun bytes => bytesDecoder bytevectorU16beRef initialU16ToUtf16CharLength
    (utf16CharDecoder bytevectorU16beRef) 1 "UTF-16BE" bytes "utf16be->string"

/-- `utf16le->string` -/
def utf16leToString : Bytevector → Option Nat → Option Nat → Reading Error (List Nat) :=
  fun bytes => bytesDecoder bytevectorU16leRef initialU16ToUtf16CharLength
    (utf16CharDecoder bytevectorU16leRef) 1 "UTF-16LE" bytes "utf16le->string"

/-- `utf32be->string` -/
def utf32beToString : Bytevector → Option Nat → Option Nat → Reading Error (List Nat) :=
  fun bytes => bytesDecoder bytevectorU32beRef initialU32ToUtf32CharLength
    (utf32CharDecoder bytevectorU32beRef) 1 "UTF-32BE" bytes "utf32be->string"

/-- `utf32le->string` -/
def utf32leToString : Bytevector → Option Nat → Option Nat → Reading Error (List Nat) :=
  fun bytes => bytesDecoder bytevectorU32leRef initialU32ToUtf32CharLength
    (utf32CharDecoder bytevectorU32leRef) 1 "UTF-32LE" bytes "utf32le->string"

end MitScheme.Codec
