import Mathlib.Data.List.Basic

/-!
# Base64

The Base64 codec of `mime-codec.scm`. A packet is the part of a bytevector or of a string that an update
is to take, and a port is what has been written to it.
-/

namespace MitScheme.Base64

/-- `do-range`: the codes of some characters, with their values. -/
def doRange (low high value : Nat) : List (Nat × Nat) :=
  (List.range (high + 1 - low)).map fun i => (low + i, value + i)

/-- What is put into both tables. -/
def codes : List (Nat × Nat) :=
  doRange 'A'.toNat 'Z'.toNat 0 ++ doRange 'a'.toNat 'z'.toNat 26 ++ doRange '0'.toNat '9'.toNat 52
    ++ [('+'.toNat, 62), ('/'.toNat, 63)]

/-- `base64:char->digit` -/
def charToDigit (char : Char) : Nat :=
  if char.toNat < 0x80 then ((codes.find? fun c => c.1 == char.toNat).map Prod.snd).getD 0xFF else 0xFF

/-- `base64:digit->char` -/
def digitToChar (digit : Nat) : Char :=
  ((codes.find? fun c => c.2 == digit).map fun c => Char.ofNat c.1).getD default

/-! ## Encoding -/

/-- `base64-encoding-context`, with the bytes of the buffer that are below the index. The buffer has room
for 48 bytes. -/
structure EncodingContext where
  port : List Char
  text : Bool
  buffer : List UInt8
  room : buffer.length < 48

/-- `encode-base64:initialize` -/
def EncodingContext.initial (text : Bool) : EncodingContext := ⟨[], text, [], by decide⟩

def writeDigit (d : Nat) : Char := digitToChar (0x3F &&& d)

/-- The loop in `write-base64-line`. -/
def quanta : List UInt8 → List Char
  | d1 :: d2 :: d3 :: rest =>
      [writeDigit (d1.toNat >>> 2), writeDigit (d1.toNat <<< 4 ||| d2.toNat >>> 4),
        writeDigit (d2.toNat <<< 2 ||| d3.toNat >>> 6), writeDigit d3.toNat] ++ quanta rest
  | [d1, d2] =>
      [writeDigit (d1.toNat >>> 2), writeDigit (d1.toNat <<< 4 ||| d2.toNat >>> 4),
        writeDigit (d2.toNat <<< 2), '=']
  | [d1] => [writeDigit (d1.toNat >>> 2), writeDigit (d1.toNat <<< 4), '=', '=']
  | [] => []

def writeBase64Line (port : List Char) (buffer : List UInt8) : List Char :=
  if 0 < buffer.length then port ++ quanta buffer ++ ['\n'] else port

/-- As many bytes are put into the buffer as it has room for, and a full buffer is written. -/
def EncodingContext.fill (c : EncodingContext) (bytes : List UInt8) : EncodingContext :=
  let buffer := c.buffer ++ bytes.take (48 - c.buffer.length)
  if h : buffer.length = 48 then ⟨writeBase64Line c.port buffer, c.text, [], by decide⟩
  else ⟨c.port, c.text, buffer, by
    have hle : buffer.length ≤ 48 := by
      rw [List.length_append, List.length_take]
      have := c.room
      omega
    omega⟩

def EncodingContext.encodeBase64 (c : EncodingContext) (bytes : List UInt8) : EncodingContext :=
  match bytes with
  | [] => c
  | byte :: rest => (c.fill (byte :: rest)).encodeBase64 ((byte :: rest).drop (48 - c.buffer.length))
termination_by bytes.length
decreasing_by
  rw [List.length_drop, List.length_cons]
  have := c.room
  omega

def cpNewline : UInt8 := 10

def cpReturn : UInt8 := 13

def bvCrlf : List UInt8 := [cpReturn, cpNewline]

/-- The loop in `encode-base64:update` in text mode, with the bytes from `start` up to `index`. -/
def EncodingContext.updateText (c : EncodingContext) (line : List UInt8) : List UInt8 → EncodingContext
  | [] => c.encodeBase64 line
  | byte :: rest =>
      if byte = cpNewline then ((c.encodeBase64 line).encodeBase64 bvCrlf).updateText [] rest
      else c.updateText (line ++ [byte]) rest

/-- `encode-base64:update` -/
def EncodingContext.update (c : EncodingContext) (bytes : List UInt8) : EncodingContext :=
  if c.text then c.updateText [] bytes else c.encodeBase64 bytes

/-- `encode-base64:finalize`, with what is on the port then. -/
def EncodingContext.finalize (c : EncodingContext) : List Char := writeBase64Line c.port c.buffer

/-- What is written in the end if some packets are encoded. -/
def encode (text : Bool) (packets : List (List UInt8)) : List Char :=
  (packets.foldl EncodingContext.update (.initial text)).finalize

/-! ## Decoding -/

inductive InputState where
  | lineStart
  | inLine
  | finished
deriving DecidableEq

/-- `base64-decoding-context`, with the characters of the input buffer that are below the index. The output
buffer is only used by one procedure for another. -/
structure DecodingContext where
  port : List UInt8
  text : Bool
  inputBuffer : List Char
  inputState : InputState
  pendingReturn : Bool

/-- `decode-base64:initialize` -/
def DecodingContext.initial (text : Bool) : DecodingContext := ⟨[], text, [], .lineStart, false⟩

def decodeBase64Char (char : Char) : Except String Nat :=
  if charToDigit char > 0x40 then .error "Misplaced #\\= in BASE64 input." else .ok (charToDigit char)

def decodeBase64Quantum1 (c1 c2 c3 c4 : Char) : Except String (List UInt8) := do
  let d1 ← decodeBase64Char c1
  let d2 ← decodeBase64Char c2
  if c4 ≠ '=' then
    let d3 ← decodeBase64Char c3
    let d4 ← decodeBase64Char c4
    let n := (d1 <<< 18 + d2 <<< 12) + (d3 <<< 6 + d4)
    .ok [.ofNat (n >>> 16), .ofNat (0xFF &&& n >>> 8), .ofNat (0xFF &&& n)]
  else if c3 ≠ '=' then
    let d3 ← decodeBase64Char c3
    let n := (d1 <<< 10 + d2 <<< 4) + d3 >>> 2
    .ok [.ofNat (n >>> 8), .ofNat (0xFF &&& n)]
  else .ok [.ofNat (d1 <<< 2 + d2 >>> 4)]

/-- The loop in `decode-base64-quantum`, which holds a return back until it is known what comes next. -/
def writeText (port : List UInt8) (pending : Bool) (bytes : List UInt8) : List UInt8 × Bool :=
  match pending, bytes with
  | _, [] => (port, pending)
  | true, u8 :: rest =>
      if u8 = cpNewline then writeText (port ++ [u8]) false rest
      else writeText (port ++ [cpReturn]) false (u8 :: rest)
  | false, u8 :: rest =>
      if u8 = cpReturn then writeText port true rest else writeText (port ++ [u8]) false rest
termination_by (bytes.length, pending.toNat)

/-- What `decode-base64-quantum` writes. -/
def DecodingContext.write (c : DecodingContext) (bytes : List UInt8) : DecodingContext :=
  if c.text then
    { c with
      port := (writeText c.port c.pendingReturn bytes).1
      pendingReturn := (writeText c.port c.pendingReturn bytes).2 }
  else { c with port := c.port ++ bytes }

/-- `decode-base64-quantum`, when the input buffer is full. -/
def DecodingContext.decodeBase64Quantum (c : DecodingContext) : Except String DecodingContext :=
  match c.inputBuffer with
  | [c1, c2, c3, c4] => do
      let bytes ← decodeBase64Quantum1 c1 c2 c3 c4
      .ok (c.write bytes)
  | _ => .ok c

/-- A character of the encoding is put into the input buffer. -/
def DecodingContext.insert (c : DecodingContext) (char : Char) : Except String DecodingContext :=
  if c.inputBuffer.length < 3 then .ok { c with inputBuffer := c.inputBuffer ++ [char] }
  else do
    let c ← DecodingContext.decodeBase64Quantum { c with inputBuffer := c.inputBuffer ++ [char] }
    .ok { c with inputBuffer := [] }

/-- The state after a character. -/
def stateAfter (char : Char) : InputState := if char = '\n' then .lineStart else .inLine

/-- The loop in `decode-base64:update`. -/
def DecodingContext.loop (c : DecodingContext) : List Char → Except String DecodingContext
  | [] => .ok c
  | char :: rest =>
      if char = '=' ∨ charToDigit char < 0x40 then do
        let c ← c.insert char
        DecodingContext.loop { c with inputState := stateAfter char } rest
      else if c.inputState = .lineStart then .ok { c with inputState := .finished }
      else DecodingContext.loop { c with inputState := stateAfter char } rest

/-- `decode-base64:update` -/
def DecodingContext.update (c : DecodingContext) (chars : List Char) : Except String DecodingContext :=
  if c.inputState = .finished then .ok c else c.loop chars

/-- `decode-base64:finalize`, with what is on the port then. -/
def DecodingContext.finalize (c : DecodingContext) : Except String (List UInt8) :=
  if c.inputBuffer.length > 0 then .error "BASE64 input length is not a multiple of 4."
  else .ok (if c.pendingReturn then c.port ++ [cpReturn] else c.port)

/-- What is written in the end if some packets are decoded. -/
def decode (text : Bool) (packets : List (List Char)) : Except String (List UInt8) := do
  let c ← packets.foldlM DecodingContext.update (.initial text)
  c.finalize

end MitScheme.Base64
