import Mathlib.Data.List.DropRight

/-!
# Quoted-printable

The quoted-printable codec of `mime-codec.scm`. A packet is the part of a string that an update is to
take, and a port is what has been written to it. The encoder writes hexadecimal digits for the characters
below U+0100 only.
-/

namespace MitScheme.QuotedPrintable

/-- A character below U+0100. -/
abbrev Latin := { char : Char // char.toNat < 0x100 }

def charLwsp (char : Char) : Bool := char = ' ' || char = '\t'

/-- `char-set:qp-encoded` -/
def qpEncoded (char : Char) : Bool :=
  !((0x21 ≤ char.toNat && char.toNat < 0x7F && char ≠ '=') || (char = ' ' || char = '\t'))

/-- How the part of a line that is to be processed ends. -/
inductive LineType where
  | lineEnd
  | partialLine
  | inputEnd
deriving DecidableEq

/-- `digit->char`, for a digit below the radix. -/
def digitToChar (digit : Nat) : Char := "0123456789abcdefghijklmnopqrstuvwxyz".toList.getD digit '0'

/-- `digit-value`, for characters below U+0100. -/
def digitValue (char : Char) : Option Nat :=
  if '0'.toNat ≤ char.toNat ∧ char.toNat ≤ '9'.toNat then some (char.toNat - '0'.toNat) else none

/-- `char->digit` with radix 16 -/
def charToDigit (char : Char) : Option Nat :=
  match digitValue char with
  | some digit => if digit < 16 then some digit else none
  | none =>
      if 'A'.toNat ≤ char.toNat ∧ char.toNat - ('A'.toNat - 10) < 16 then
        some (char.toNat - ('A'.toNat - 10))
      else if 'a'.toNat ≤ char.toNat ∧ char.toNat - ('a'.toNat - 10) < 16 then
        some (char.toNat - ('a'.toNat - 10))
      else none

/-! ## Encoding -/

/-- `qp-encoding-context` -/
structure EncodingContext where
  port : List Char
  text : Bool
  pendingLwsp : Option Latin
  column : Nat
  pendingOutput : Option (List Char)

/-- `encode-quoted-printable:initialize` -/
def EncodingContext.initial (text : Bool) : EncodingContext := ⟨[], text, none, 0, none⟩

def EncodingContext.writeQpSoftBreak (c : EncodingContext) : EncodingContext :=
  { c with port := c.port ++ ['=', '\n'], column := 0 }

def EncodingContext.writeQpPendingOutput (c : EncodingContext) (newline : Bool) : EncodingContext :=
  match c.pendingOutput with
  | none => c
  | some pending =>
      let c := if newline then c else c.writeQpSoftBreak
      { c with port := c.port ++ pending, pendingOutput := none, column := c.column + pending.length }

def EncodingContext.writeQpClear (c : EncodingContext) (char : Latin) : EncodingContext :=
  let c := c.writeQpPendingOutput false
  if c.column < 75 then { c with port := c.port ++ [char.val], column := c.column + 1 }
  else if ¬ c.text then
    let c := c.writeQpSoftBreak
    { c with port := c.port ++ [char.val], column := 1 }
  else { c with pendingOutput := some [char.val] }

/-- What stands for an encoded character. -/
def encoded (char : Latin) : List Char :=
  ['=', digitToChar (char.val.toNat >>> 4), digitToChar (0x0F &&& char.val.toNat)]

def EncodingContext.writeQpEncoded (c : EncodingContext) (char : Latin) : EncodingContext :=
  let c := c.writeQpPendingOutput false
  if c.column = 73 then { c with pendingOutput := some (encoded char) }
  else
    let c := if c.column > 73 then c.writeQpSoftBreak else c
    { c with port := c.port ++ encoded char, column := c.column + 3 }

def EncodingContext.writeQpHardBreak (c : EncodingContext) : EncodingContext :=
  let c := c.writeQpPendingOutput true
  { c with port := c.port ++ ['\n'], column := 0 }

def EncodingContext.encodeQpPendingLwsp (c : EncodingContext) (packetNotEmpty : Bool) (type : LineType) :
    EncodingContext :=
  match c.pendingLwsp with
  | none => c
  | some pending =>
      if packetNotEmpty then EncodingContext.writeQpClear { c with pendingLwsp := none } pending
      else if type ≠ .partialLine then EncodingContext.writeQpEncoded { c with pendingLwsp := none } pending
      else c

/-- The loop in `encode-qp`. -/
def EncodingContext.loop (type : LineType) (c : EncodingContext) : List Latin → EncodingContext
  | [] => if type = .lineEnd then c.writeQpHardBreak else c
  | char :: rest =>
      if ¬ charLwsp char.val then
        EncodingContext.loop type
          (if qpEncoded char.val then c.writeQpEncoded char else c.writeQpClear char) rest
      else if type = .partialLine ∧ rest = [] then { c with pendingLwsp := some char }
      else
        EncodingContext.loop type (if rest ≠ [] then c.writeQpClear char else c.writeQpEncoded char) rest

def EncodingContext.encodeQp (c : EncodingContext) (chars : List Latin) (type : LineType) :
    EncodingContext :=
  (c.encodeQpPendingLwsp (chars ≠ []) type).loop type chars

/-- The loop in `encode-quoted-printable:update` in text mode, with the characters from `start` up to
`i`. -/
def EncodingContext.updateText (c : EncodingContext) (line : List Latin) : List Latin → EncodingContext
  | [] => c.encodeQp line .partialLine
  | char :: rest =>
      if char.val = '\n' then (c.encodeQp line .lineEnd).updateText [] rest
      else c.updateText (line ++ [char]) rest

/-- `encode-quoted-printable:update` -/
def EncodingContext.update (c : EncodingContext) (chars : List Latin) : EncodingContext :=
  if c.text then c.updateText [] chars else c.encodeQp chars .partialLine

/-- `encode-quoted-printable:finalize`, with what is on the port then. -/
def EncodingContext.finalize (c : EncodingContext) : List Char :=
  ((c.encodeQpPendingLwsp false .inputEnd).writeQpPendingOutput true).port

/-- What is written in the end if some packets are encoded. -/
def encode (text : Bool) (packets : List (List Latin)) : List Char :=
  (packets.foldl EncodingContext.update (.initial text)).finalize

/-! ## Decoding -/

/-- Input that has to wait: an equals sign or the digit after it, or white space. -/
inductive Pending where
  | char (char : Char)
  | string (string : List Char)

/-- An object is not what a primitive procedure takes. -/
inductive WrongType where
  | notFixnum
  | notString

/-- `qp-decoding-context` -/
structure DecodingContext where
  port : List Char
  pending : Option Pending

/-- `decode-quoted-printable:initialize`. The decoder never asks for the mode. -/
def DecodingContext.initial : DecodingContext := ⟨[], none⟩

def DecodingContext.write (d : DecodingContext) (chars : List Char) : DecodingContext :=
  { d with port := d.port ++ chars }

/-- `decode-qp-hex`. A digit is always below 16. -/
def decodeQpHex (c1 c2 : Char) : Except WrongType Char :=
  match charToDigit c1, charToDigit c2 with
  | some d1, some d2 => .ok (Char.ofNat (d1 <<< 4 ||| d2))
  | _, _ => .error .notFixnum

mutual

/-- The loop in `decode-qp`, up to `finish`. -/
def DecodingContext.loop (d : DecodingContext) : List Char → Except WrongType DecodingContext
  | [] => .ok d
  | char :: rest =>
      if qpEncoded char then
        if char = '=' then d.handleEquals rest
        else d.loop rest
      else (d.write [char]).loop rest

def DecodingContext.handleEquals (d : DecodingContext) : List Char → Except WrongType DecodingContext
  | [] => .ok { d with pending := some (.char '=') }
  | [char] =>
      if (charToDigit char).isSome then .ok { d with pending := some (.char char) }
      else .ok (d.write ['=', char])
  | c1 :: c2 :: rest =>
      match decodeQpHex c1 c2 with
      | .ok char => (d.write [char]).loop rest
      | .error e => .error e

end

def decodeQpPendingString (pending : Option Pending) (lwsp : List Char) :
    Except WrongType (Option Pending) :=
  if lwsp = [] then .ok pending
  else
    match pending with
    | none => .ok (some (.string lwsp))
    | some (.string string) => .ok (some (.string (string ++ lwsp)))
    | some (.char _) => .error .notString

/-- `finish`, with the white space at the end of the line. -/
def DecodingContext.finish (d : DecodingContext) (lwsp : List Char) (type : LineType) :
    Except WrongType DecodingContext :=
  if type = .partialLine then do
    let pending ← decodeQpPendingString d.pending lwsp
    .ok { d with pending := pending }
  else
    match d.pending with
    | none => if type = .lineEnd then .ok (d.write ['\n']) else .ok d
    | some (.char char) =>
        if char = '=' then
          if type = .lineEnd then .ok { d with pending := none }
          else .ok ⟨d.port ++ ['='], none⟩
        else .ok ⟨d.port ++ ['=', char], none⟩
    | some (.string _) => .ok { d with pending := none }

/-- What was pending is taken up, if there is more on the line. -/
def DecodingContext.resume (d : DecodingContext) (chars : List Char) : Except WrongType DecodingContext :=
  match d.pending, chars with
  | none, _ => d.loop chars
  | some _, [] => d.loop []
  | some (.char char), c2 :: rest =>
      let d : DecodingContext := { d with pending := none }
      if char = '=' then d.handleEquals (c2 :: rest)
      else
        match decodeQpHex char c2 with
        | .ok char => (d.write [char]).loop rest
        | .error e => .error e
  | some (.string string), c2 :: rest => DecodingContext.loop ⟨d.port ++ string, none⟩ (c2 :: rest)

/-- `skip-lwsp-backwards`, with what is left of the line. -/
def skipLwspBackwards (chars : List Char) : List Char := chars.rdropWhile charLwsp

def DecodingContext.decodeQp (d : DecodingContext) (chars : List Char) (type : LineType) :
    Except WrongType DecodingContext := do
  let d ← d.resume (skipLwspBackwards chars)
  d.finish (chars.rtakeWhile charLwsp) type

/-- The loop in `decode-quoted-printable:update`, with the characters from `start` up to `i`. -/
def DecodingContext.updateLines (d : DecodingContext) (line : List Char) :
    List Char → Except WrongType DecodingContext
  | [] => d.decodeQp line .partialLine
  | char :: rest =>
      if char = '\n' then do
        let d ← d.decodeQp (skipLwspBackwards line) .lineEnd
        d.updateLines [] rest
      else d.updateLines (line ++ [char]) rest

/-- `decode-quoted-printable:update` -/
def DecodingContext.update (d : DecodingContext) (chars : List Char) : Except WrongType DecodingContext :=
  d.updateLines [] chars

/-- `decode-quoted-printable:finalize`, with what is on the port then. -/
def DecodingContext.finalize (d : DecodingContext) : Except WrongType (List Char) := do
  let d ← d.decodeQp [] .inputEnd
  .ok d.port

/-- What is written in the end if some packets are decoded. -/
def decode (packets : List (List Char)) : Except WrongType (List Char) := do
  let d ← packets.foldlM DecodingContext.update .initial
  d.finalize

end MitScheme.QuotedPrintable
