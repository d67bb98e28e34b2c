import MitScheme.Runtime.Regsexp

/-!
# BinHex 4.0

The BinHex 4.0 decoder of `mime-codec.scm`: the port that separates the forks, the one that expands runs,
and the decoder on top of them. That binary ports have buffers is left out, and a packet is the part of a
string that an update is to take.
-/

namespace MitScheme.Binhex40

open RegularSexpression

inductive Error where
  /-- `error:decode-binhex40` -/
  | decodeBinhex40 (message : String)
  /-- `error:not-a` -/
  | notA (predicate : String) (caller : String)
  | regsexp (e : RegularSexpression.Error Nat)
  /-- The matcher does not come to an end. -/
  | exhausted
deriving DecidableEq

/-! ## Deconstruction -/

inductive ForkState where
  | readingHeader
  | copyingData
  | skippingTail
  | finished
deriving DecidableEq

/-- `make-binhex40-deconstructing-sink`, with what has been written to its port. -/
structure Deconstructing where
  port : List UInt8
  state : ForkState
  headerLength : Nat
  header : List UInt8
  index : Nat
  dataLength : Nat

def makeDeconstructing : Deconstructing := ⟨[], .readingHeader, 0, [], 0, 0⟩

def Deconstructing.readDataLength (d : Deconstructing) (index : Nat) : Nat :=
  (d.header.getD index 0).toNat * 0x1000000 + (d.header.getD (index + 1) 0).toNat * 0x10000
    + (d.header.getD (index + 2) 0).toNat * 0x100 + (d.header.getD (index + 3) 0).toNat

/-- The turn of `write-bytes` for a byte. -/
def Deconstructing.writeByte (d : Deconstructing) (byte : UInt8) : Deconstructing :=
  match d.state with
  | .readingHeader =>
      if d.index = 0 then
        { d with
          headerLength := 22 + byte.toNat
          header := List.replicate (22 + byte.toNat) 0
          index := 1 }
      else if d.index < d.headerLength then
        { d with header := d.header.set d.index byte, index := d.index + 1 }
      else
        { d with dataLength := d.readDataLength (d.headerLength - 10), index := 0, state := .copyingData }
  | .copyingData =>
      if d.index < d.dataLength then { d with port := d.port ++ [byte], index := d.index + 1 }
      else
        { d with
          index := 0
          dataLength := d.readDataLength (d.headerLength - 6) + 4
          state := .skippingTail }
  | .skippingTail =>
      if d.index < d.dataLength then { d with index := d.index + 1 } else { d with state := .finished }
  | .finished => d

def marker : UInt8 := 0x90

/-- `make-binhex-run-length-decoding-sink` -/
structure RunLength where
  port : Deconstructing
  markerSeen : Bool
  byte : Option UInt8

def makeRunLength : RunLength := ⟨makeDeconstructing, false, none⟩

/-- The byte that is held back is written. -/
def RunLength.flush (r : RunLength) : RunLength :=
  match r.byte with
  | some byte => { r with port := r.port.writeByte byte }
  | none => r

def RunLength.writeByte (r : RunLength) (byte : UInt8) : RunLength :=
  if r.markerSeen then
    if byte = 0 then { r.flush with byte := some marker, markerSeen := false }
    else
      match r.byte with
      | some held =>
          { r with
            port := (List.replicate byte.toNat held).foldl Deconstructing.writeByte r.port
            byte := none
            markerSeen := false }
      | none => { r with markerSeen := false }
  else if byte = marker then { r with markerSeen := true }
  else { r.flush with byte := some byte }

/-- `close`, with what is on the last port then. -/
def RunLength.close (r : RunLength) : List UInt8 :=
  let port := if r.markerSeen then r.flush.port.writeByte marker else r.flush.port
  port.port

/-! ## Decoding -/

inductive DecoderState where
  | seekingComment
  | decoding
  | ignoring
deriving DecidableEq

/-- `binhex40-decoding-context`, with the characters of the input buffer that are below the index. -/
structure Context where
  port : RunLength
  state : DecoderState
  lineBuffer : List Char
  inputBuffer : List Char

/-- `decode-binhex40:initialize` -/
def Context.initial : Context := ⟨makeRunLength, .seekingComment, [], []⟩

def digitToCharTable : List Char :=
  "!\"#$%&'()*+,-012345689@ABCDEFGHIJKLMNPQRSTUVXYZ[`abcdefhijklmpqr".toList

/-- `binhex40:char->digit` -/
def charToDigit (char : Char) : Nat :=
  if char.toNat < 0x80 ∧ char ∈ digitToCharTable then digitToCharTable.idxOf char else 0xFF

/-- What a procedure may be given as an argument. -/
inductive Object where
  | fixnum (n : Nat)
  | port (port : RunLength)

/-- `write-bytevector`, with the port afterwards. -/
def writeBytevector (bytevector : List UInt8) (port start stop : Object) : Except Error RunLength :=
  match port, start, stop with
  | .port port, .fixnum start, .fixnum stop =>
      .ok (((bytevector.take stop).drop start).foldl RunLength.writeByte port)
  | .fixnum _, _, _ => .error (.notA "binary-output-port?" "write-bytevector")
  | _, _, _ => .error (.notA "index-fixnum?" "write-bytevector")

def decodeBinhex40Char (char : Char) : Except Error Nat :=
  if charToDigit char ≥ 0x40 then
    .error (.decodeBinhex40 "Illegal character in BinHex 4.0 input stream:")
  else .ok (charToDigit char)

/-- `decode-binhex40-quantum-1`, with the bytes that are in the output buffer. -/
def decodeBinhex40Quantum1 (input : List Char) : Except Error (List UInt8) := do
  let d1 ← decodeBinhex40Char (input.getD 0 ' ')
  let d2 ← decodeBinhex40Char (input.getD 1 ' ')
  if input.getD 2 ' ' = ':' then .ok [.ofNat (d1 <<< 2 + d2 >>> 4)]
  else if input.getD 3 ' ' = ':' then
    let d3 ← decodeBinhex40Char (input.getD 2 ' ')
    let n := (d1 <<< 10 + d2 <<< 4) + d3 >>> 2
    .ok [.ofNat (n >>> 8), .ofNat (0xFF &&& n)]
  else
    let d3 ← decodeBinhex40Char (input.getD 2 ' ')
    let d4 ← decodeBinhex40Char (input.getD 3 ' ')
    let n := (d1 <<< 18 + d2 <<< 12) + (d3 <<< 6 + d4)
    .ok [.ofNat (n >>> 16), .ofNat (0xFF &&& n >>> 8), .ofNat (0xFF &&& n)]

/-- `decode-binhex40-quantum`, which passes the bounds and the port in another order than
`write-bytevector` takes them. -/
def Context.decodeBinhex40Quantum (c : Context) (input : List Char) : Except Error Context := do
  let output ← decodeBinhex40Quantum1 input
  let port ← writeBytevector output (.fixnum 0) (.fixnum output.length) (.port c.port)
  .ok { c with port := port }

def Context.decodeBinhex40Decoding (c : Context) : List Char → Except Error Context
  | [] => .ok c
  | char :: rest =>
      if char = ':' then
        if c.inputBuffer.length > 0 then do
          let c ← c.decodeBinhex40Quantum (c.inputBuffer ++ [char])
          .ok { c with state := .ignoring }
        else .ok { c with state := .ignoring }
      else if charToDigit char < 0x40 then
        if c.inputBuffer.length < 3 then
          Context.decodeBinhex40Decoding { c with inputBuffer := c.inputBuffer ++ [char] } rest
        else do
          let c ← c.decodeBinhex40Quantum (c.inputBuffer ++ [char])
          Context.decodeBinhex40Decoding { c with inputBuffer := [] } rest
      else c.decodeBinhex40Decoding rest

/-- A set of characters. -/
def charSet (chars : List Char) (char : Char) : Bool := char ∈ chars

/-- `binhex40-header-regexp` -/
def headerRegexp : Regsexp Nat :=
  .seq [.star (.charSet (charSet ['\r', '\n', '\t', ' '])),
    .string "(This file must be converted with BinHex".toList,
    .star .anyChar,
    .charSet (charSet ['\r', '\n']),
    .star (.charSet (charSet ['\r', '\n', '\t', ' '])),
    .string [':']]

def Context.decodeBinhex40SeekingComment (nfc : List Char → Bool) (c : Context) (chars : List Char) :
    Except Error Context :=
  let s := c.lineBuffer ++ chars
  match regsexpMatchString nfc (s.length + 1) headerRegexp s none none with
  | .found _ stop _ =>
      Context.decodeBinhex40Decoding { c with state := .decoding, lineBuffer := [] } (s.drop stop)
  | .notFound => .ok { c with lineBuffer := s }
  | .error e => .error (.regsexp e)
  | .exhausted => .error .exhausted

/-- `decode-binhex40:update` -/
def Context.update (nfc : List Char → Bool) (c : Context) (chars : List Char) : Except Error Context :=
  match c.state with
  | .seekingComment => c.decodeBinhex40SeekingComment nfc chars
  | .decoding => c.decodeBinhex40Decoding chars
  | .ignoring => .ok c

/-- `decode-binhex40:finalize`, with what is on the port then. -/
def Context.finalize (c : Context) : Except Error (List UInt8) :=
  match c.state with
  | .seekingComment => .error (.decodeBinhex40 "Missing BinHex 4.0 initial comment line.")
  | .decoding => .error (.decodeBinhex40 "Missing BinHex 4.0 terminating character.")
  | .ignoring => .ok c.port.close

/-- What is written in the end if some packets are decoded. -/
def decode (nfc : List Char → Bool) (packets : List (List Char)) : Except Error (List UInt8) := do
  let c ← packets.foldlM (Context.update nfc) .initial
  c.finalize

end MitScheme.Binhex40
