import MitScheme.Lib.Bits
import MitScheme.Lib.Results
import MitScheme.Runtime.QuotedPrintable

/-!
# Quoted-printable round trips

The encoder is a loop over single characters, however they are cut into packets. What it writes is made of
characters that stand for themselves, of encoded ones and of line breaks, and a decoder that is given it
character by character, and may stop anywhere, gets back what was encoded.
-/

namespace MitScheme.QuotedPrintable

open EncodingContext DecodingContext List Option

variable {c : EncodingContext} {d d' : DecodingContext} {char : Latin} {text content : List Char}
  {trailing : Bool} {column : Nat} {type : LineType}

theorem charToDigit_digitToChar : ∀ n < 16, charToDigit (digitToChar n) = some n := by decide +kernel

theorem digitToChar_ne : ∀ n < 16, digitToChar n ≠ '\n' ∧ charLwsp (digitToChar n) = false := by
  decide +kernel

theorem and_0x0F (n : Nat) : 0x0F &&& n = n % 16 := by
  rw [Nat.and_comm]
  exact and_mask n 4

theorem digits_lt (char : Latin) : char.val.toNat >>> 4 < 16 ∧ 0x0F &&& char.val.toNat < 16 := by
  rw [and_0x0F]
  omega

theorem decodeQpHex_digits (char : Latin) :
    decodeQpHex (digitToChar (char.val.toNat >>> 4)) (digitToChar (0x0F &&& char.val.toNat))
      = .ok char.val := by
  obtain ⟨hhigh, hlow⟩ := digits_lt char
  rw [decodeQpHex, charToDigit_digitToChar _ hhigh, charToDigit_digitToChar _ hlow]
  rw [and_0x0F] at hlow ⊢
  dsimp only
  rw [shiftLeft_or_eq hlow, Nat.shiftRight_eq_div_pow]
  have hsum : char.val.toNat / 2 ^ 4 * 2 ^ 4 + char.val.toNat % 16 = char.val.toNat := by omega
  rw [hsum, Char.ofNat_toNat]

/-! ## Encoding character by character -/

/-- A character is encoded, and those that were waiting for it. -/
def EncodingContext.push (c : EncodingContext) (char : Latin) : EncodingContext :=
  let c := c.encodeQpPendingLwsp true .partialLine
  if charLwsp char.val then { c with pendingLwsp := some char }
  else if qpEncoded char.val then c.writeQpEncoded char
  else c.writeQpClear char

/-- A line ends. -/
def EncodingContext.pushNewline (c : EncodingContext) : EncodingContext :=
  (c.encodeQpPendingLwsp false .lineEnd).writeQpHardBreak

def EncodingContext.step (c : EncodingContext) (char : Latin) : EncodingContext :=
  if c.text ∧ char.val = '\n' then c.pushNewline else c.push char

theorem EncodingContext.writeQpPendingOutput_fields (c : EncodingContext) (newline : Bool) :
    (c.writeQpPendingOutput newline).text = c.text
      ∧ (c.writeQpPendingOutput newline).pendingLwsp = c.pendingLwsp := by
  rw [writeQpPendingOutput]
  split
  · exact ⟨rfl, rfl⟩
  · cases newline <;> exact ⟨rfl, rfl⟩

theorem EncodingContext.writeQpClear_fields (c : EncodingContext) (char : Latin) :
    (c.writeQpClear char).text = c.text ∧ (c.writeQpClear char).pendingLwsp = c.pendingLwsp := by
  obtain ⟨htext, hlwsp⟩ := c.writeQpPendingOutput_fields false
  rw [← htext, ← hlwsp, writeQpClear]
  split
  · exact ⟨rfl, rfl⟩
  · split <;> exact ⟨rfl, rfl⟩

theorem EncodingContext.writeQpEncoded_fields (c : EncodingContext) (char : Latin) :
    (c.writeQpEncoded char).text = c.text ∧ (c.writeQpEncoded char).pendingLwsp = c.pendingLwsp := by
  obtain ⟨htext, hlwsp⟩ := c.writeQpPendingOutput_fields false
  rw [← htext, ← hlwsp, writeQpEncoded]
  split
  · exact ⟨rfl, rfl⟩
  · split <;> exact ⟨rfl, rfl⟩

theorem EncodingContext.encodeQpPendingLwsp_text (c : EncodingContext) (packetNotEmpty : Bool)
    (type : LineType) : (c.encodeQpPendingLwsp packetNotEmpty type).text = c.text := by
  rw [encodeQpPendingLwsp]
  split
  · rfl
  · split
    · exact (writeQpClear_fields _ _).1
    · split
      · exact (writeQpEncoded_fields _ _).1
      · rfl

theorem EncodingContext.encodeQpPendingLwsp_of_none (h : c.pendingLwsp = none) (packetNotEmpty : Bool)
    (type : LineType) : c.encodeQpPendingLwsp packetNotEmpty type = c := by
  rw [encodeQpPendingLwsp, h]

theorem EncodingContext.push_of_none (h : c.pendingLwsp = none) (char : Latin) :
    c.push char = if charLwsp char.val then { c with pendingLwsp := some char }
      else if qpEncoded char.val then c.writeQpEncoded char else c.writeQpClear char := by
  rw [EncodingContext.push, encodeQpPendingLwsp_of_none h]

theorem EncodingContext.push_text (c : EncodingContext) (char : Latin) : (c.push char).text = c.text := by
  rw [EncodingContext.push]
  split
  · exact c.encodeQpPendingLwsp_text true .partialLine
  · split
    · rw [(writeQpEncoded_fields _ _).1, encodeQpPendingLwsp_text]
    · rw [(writeQpClear_fields _ _).1, encodeQpPendingLwsp_text]

theorem EncodingContext.pushNewline_text (c : EncodingContext) : c.pushNewline.text = c.text := by
  exact (writeQpPendingOutput_fields _ _).1.trans (c.encodeQpPendingLwsp_text _ _)

theorem EncodingContext.foldl_push_text (c : EncodingContext) (chars : List Latin) :
    (chars.foldl EncodingContext.push c).text = c.text := by
  induction chars generalizing c with
  | nil => rfl
  | cons char chars ih => rw [foldl_cons, ih, c.push_text]

theorem EncodingContext.push_pending {w : Latin} (h : c.pendingLwsp = some w) (char : Latin) :
    c.push char = (writeQpClear { c with pendingLwsp := none } w).push char := by
  have hnone : (writeQpClear { c with pendingLwsp := none } w).pendingLwsp = none :=
    (writeQpClear_fields _ _).2
  rw [push_of_none hnone, EncodingContext.push, encodeQpPendingLwsp, h]
  rfl

/-- The end of a part of a line. -/
def EncodingContext.endLine (c : EncodingContext) (type : LineType) : EncodingContext :=
  if type = .lineEnd then c.pushNewline else c

theorem EncodingContext.endLine_of_none (h : c.pendingLwsp = none) :
    c.endLine type = if type = .lineEnd then c.writeQpHardBreak else c := by
  rw [endLine, EncodingContext.pushNewline, encodeQpPendingLwsp_of_none h]

theorem EncodingContext.loop_eq (htype : type ≠ .inputEnd) (h : c.pendingLwsp = none)
    (chars : List Latin) :
    c.loop type chars = (chars.foldl EncodingContext.push c).endLine type := by
  induction chars generalizing c with
  | nil =>
      rw [EncodingContext.loop, foldl_nil, endLine_of_none h]
  | cons char rest ih =>
      rw [EncodingContext.loop, foldl_cons, push_of_none h]
      by_cases hlwsp : charLwsp char.val = true
      · rw [if_neg (by simpa using hlwsp), if_pos hlwsp]
        cases rest with
        | nil =>
            cases type with
            | partialLine => rfl
            | lineEnd =>
                simp only [reduceCtorEq, false_and, if_false, ne_eq, not_true_eq_false]
                rw [EncodingContext.loop, foldl_nil, endLine, EncodingContext.pushNewline, encodeQpPendingLwsp]
                simp only [Bool.false_eq_true, if_false, ne_eq, reduceCtorEq, not_false_eq_true, if_true]
                rw [← h]
            | inputEnd => exact absurd rfl htype
        | cons char' rest =>
            rw [if_neg (fun hboth => cons_ne_nil _ _ hboth.2), if_pos (cons_ne_nil _ _),
              ih ((c.writeQpClear_fields char).2.trans h), foldl_cons, foldl_cons]
            rw [push_pending (c := { c with pendingLwsp := some char }) rfl]
            rw [← h]
      · rw [if_pos (by simpa using hlwsp), if_neg hlwsp]
        refine ih ?_
        split
        · exact (c.writeQpEncoded_fields char).2.trans h
        · exact (c.writeQpClear_fields char).2.trans h

theorem EncodingContext.encodeQp_eq (htype : type ≠ .inputEnd) (c : EncodingContext) (chars : List Latin) :
    c.encodeQp chars type = (chars.foldl EncodingContext.push c).endLine type := by
  rw [encodeQp]
  cases h : c.pendingLwsp with
  | none =>
      rw [encodeQpPendingLwsp_of_none h, loop_eq htype h]
  | some w =>
      cases chars with
      | nil =>
          rw [endLine]
          cases type with
          | lineEnd => rfl
          | partialLine =>
              rw [encodeQpPendingLwsp, h]
              rfl
          | inputEnd => exact absurd rfl htype
      | cons char rest =>
          have hclear : (writeQpClear { c with pendingLwsp := none } w).pendingLwsp = none :=
            (writeQpClear_fields _ _).2
          have hpending : c.encodeQpPendingLwsp (char :: rest ≠ []) type
              = writeQpClear { c with pendingLwsp := none } w := by
            rw [encodeQpPendingLwsp, h]
            rfl
          rw [hpending, loop_eq htype hclear, foldl_cons, foldl_cons,
            push_pending h]

theorem EncodingContext.updateText_eq (h : c.text = true) (line chars : List Latin) :
    c.updateText line chars = chars.foldl EncodingContext.step (line.foldl EncodingContext.push c) := by
  induction chars generalizing c line with
  | nil => exact encodeQp_eq (by decide) c line
  | cons char rest ih =>
      have htext := (c.foldl_push_text line).trans h
      rw [updateText, foldl_cons, EncodingContext.step]
      by_cases hnewline : char.val = '\n'
      · rw [if_pos hnewline, if_pos ⟨htext, hnewline⟩, encodeQp_eq (by decide),
          endLine]
        exact ih ((pushNewline_text _).trans htext) []
      · rw [if_neg hnewline, if_neg fun hboth => hnewline hboth.2, ih h, foldl_append, foldl_cons,
          foldl_nil]

theorem EncodingContext.update_eq (c : EncodingContext) (chars : List Latin) :
    c.update chars = chars.foldl EncodingContext.step c := by
  rw [EncodingContext.update]
  cases htext : c.text with
  | true => exact updateText_eq htext [] chars
  | false =>
      rw [if_neg (by decide), encodeQp_eq (by decide), endLine,
        if_neg (by decide)]
      induction chars generalizing c with
      | nil => rfl
      | cons char chars ih =>
          rw [foldl_cons, foldl_cons, EncodingContext.step, if_neg (by rw [htext]; simp)]
          exact ih _ ((c.push_text char).trans htext)

theorem EncodingContext.updates_eq (c : EncodingContext) (packets : List (List Latin)) :
    packets.foldl EncodingContext.update c = packets.flatten.foldl EncodingContext.step c := by
  induction packets generalizing c with
  | nil => rfl
  | cons chars packets ih =>
      rw [foldl_cons, ih, c.update_eq, flatten_cons, foldl_append]

/-! ## Encodings -/

/-- A text stands for a content, and ends in white space or not. -/
inductive Encodes : List Char → List Char → Bool → Prop
  | nil : Encodes [] [] false
  | clear {text content : List Char} {trailing : Bool} {char : Char} (h : Encodes text content trailing)
      (hclear : qpEncoded char = false) :
      Encodes (text ++ [char]) (content ++ [char]) (charLwsp char)
  | encoded {text content : List Char} {trailing : Bool} {char : Latin}
      (h : Encodes text content trailing) :
      Encodes (text ++ encoded char) (content ++ [char.val]) false
  | softBreak {text content : List Char} {trailing : Bool} (h : Encodes text content trailing) :
      Encodes (text ++ ['=', '\n']) content false
  | hardBreak {text content : List Char} (h : Encodes text content false) :
      Encodes (text ++ ['\n']) (content ++ ['\n']) false

/-- The lines of a text have at most 76 characters, and the last one has as many as are counted. -/
inductive Fits : List Char → Nat → Prop
  | nil : Fits [] 0
  | char {text : List Char} {column : Nat} {char : Char} (h : Fits text column) (hchar : char ≠ '\n')
      (hle : column < 76) : Fits (text ++ [char]) (column + 1)
  | newline {text : List Char} {column : Nat} (h : Fits text column) : Fits (text ++ ['\n']) 0

variable {chars piece : List Char} {after : Bool}

theorem Fits.append (h : Fits text column) (hchars : '\n' ∉ chars)
    (hle : column + chars.length ≤ 76) : Fits (text ++ chars) (column + chars.length) := by
  induction chars generalizing text column with
  | nil =>
      rw [append_nil]
      exact h
  | cons char chars ih =>
      rw [length_cons] at hle ⊢
      have hchar : char ≠ '\n' := fun heq => hchars (heq ▸ mem_cons_self)
      have hcount : column + (chars.length + 1) = column + 1 + chars.length := by omega
      rw [append_cons, hcount]
      exact ih (h.char hchar (by omega)) (fun hmem => hchars (mem_cons_of_mem char hmem)) (by omega)

/-- What is written for a character. -/
inductive Piece : List Char → Char → Bool → Prop
  | clear {char : Char} (hclear : qpEncoded char = false) : Piece [char] char (charLwsp char)
  | encoded (char : Latin) : Piece (encoded char) char.val false

theorem Encodes.append {char : Char} (h : Encodes text content trailing)
    (hpiece : Piece piece char after) : Encodes (text ++ piece) (content ++ [char]) after := by
  cases hpiece with
  | clear hclear => exact h.clear hclear
  | encoded char => exact h.encoded

theorem Piece.newline {piece : List Char} {char : Char} {after : Bool} (h : Piece piece char after) :
    '\n' ∉ piece := by
  cases h with
  | clear hclear =>
      intro hmem
      rw [← mem_singleton.mp hmem] at hclear
      exact absurd hclear (by decide)
  | encoded char =>
      obtain ⟨hhigh, hlow⟩ := digits_lt char
      simp only [QuotedPrintable.encoded, mem_cons, not_mem_nil, or_false, not_or]
      exact ⟨by decide, (digitToChar_ne _ hhigh).1.symm, (digitToChar_ne _ hlow).1.symm⟩

theorem Piece.length {piece : List Char} {char : Char} {after : Bool} (h : Piece piece char after) :
    piece.length ≤ 3 := by
  cases h with
  | clear _ => exact (by decide : 1 ≤ 3)
  | encoded char => exact le_refl 3

/-! ## What the encoder has written -/

/-- What is on the port, when no output is pending. -/
structure Flushed (c : EncodingContext) (content : List Char) (trailing : Bool) : Prop where
  pendingOutput : c.pendingOutput = none
  encodes : Encodes c.port content trailing
  fits : Fits c.port c.column
  column : c.column ≤ 75

/-- Pending output still fits on the line, if nothing comes after it. -/
inductive Written (c : EncodingContext) : List Char → Bool → Prop
  | flushed {content : List Char} {trailing : Bool} (h : Flushed c content trailing) :
      Written c content trailing
  | waiting {content piece : List Char} {char : Char} {trailing after : Bool}
      (hpending : c.pendingOutput = some piece) (hpiece : Piece piece char after)
      (hencodes : Encodes c.port content trailing) (hfits : Fits c.port c.column) (hcolumn : c.column ≤ 75)
      (hle : c.column + piece.length ≤ 76) : Written c (content ++ [char]) after

theorem Flushed.softBreak (h : Flushed c content trailing) : Flushed c.writeQpSoftBreak content false := by
  have hcolumn := h.column
  have hequals := h.fits.char (by decide : '=' ≠ '\n') (by omega)
  refine ⟨h.pendingOutput, h.encodes.softBreak, ?_, Nat.zero_le 75⟩
  have hbreak := hequals.newline
  rwa [append_assoc] at hbreak

theorem Flushed.write {char : Char} (h : Flushed c content trailing)
    (hpiece : Piece piece char after) (hle : c.column + piece.length ≤ 75) :
    Flushed { c with port := c.port ++ piece, column := c.column + piece.length } (content ++ [char]) after :=
  ⟨h.pendingOutput, h.encodes.append hpiece, h.fits.append hpiece.newline (by omega), hle⟩

theorem Written.flush (h : Written c content trailing) :
    Flushed (c.writeQpPendingOutput false) content trailing := by
  cases h with
  | flushed h =>
      rw [writeQpPendingOutput, h.pendingOutput]
      exact h
  | @waiting content piece char trailing after hpending hpiece hencodes hfits hcolumn hle =>
      rw [writeQpPendingOutput, hpending]
      have hlength := hpiece.length
      have hequals := hfits.char (by decide : '=' ≠ '\n') (by omega)
      have hbreak := hequals.newline
      rw [append_assoc] at hbreak
      refine ⟨rfl, hencodes.softBreak.append hpiece, hbreak.append hpiece.newline (by omega), ?_⟩
      exact (Nat.zero_add _).trans_le (hlength.trans (by decide))

theorem Written.finish (h : Written c content trailing) :
    Encodes (c.writeQpPendingOutput true).port content trailing
      ∧ ∃ column, Fits (c.writeQpPendingOutput true).port column := by
  cases h with
  | flushed h =>
      rw [writeQpPendingOutput, h.pendingOutput]
      exact ⟨h.encodes, _, h.fits⟩
  | waiting hpending hpiece hencodes hfits hcolumn hle =>
      rw [writeQpPendingOutput, hpending]
      exact ⟨hencodes.append hpiece, _, hfits.append hpiece.newline hle⟩

theorem Written.clear (h : Written c content trailing) (hclear : qpEncoded char.val = false) :
    Written (c.writeQpClear char) (content ++ [char.val]) (charLwsp char.val) := by
  have hflushed := h.flush
  have hcolumn := hflushed.column
  rw [writeQpClear]
  split
  · exact .flushed (hflushed.write (.clear hclear) (by assumption))
  · split
    · exact .flushed (hflushed.softBreak.write (.clear hclear) (Nat.le_of_ble_eq_true rfl))
    · exact .waiting rfl (.clear hclear) hflushed.encodes hflushed.fits hcolumn (Nat.succ_le_succ hcolumn)

theorem Written.encoded (h : Written c content trailing) (char : Latin) :
    Written (c.writeQpEncoded char) (content ++ [char.val]) false := by
  have hflushed := h.flush
  have hcolumn := hflushed.column
  have hlength : (QuotedPrintable.encoded char).length = 3 := rfl
  rw [writeQpEncoded]
  split
  · refine .waiting rfl (.encoded char) hflushed.encodes hflushed.fits hcolumn ?_
    dsimp only
    omega
  · split
    · exact .flushed (hflushed.softBreak.write (.encoded char) (Nat.le_of_ble_eq_true rfl))
    · exact .flushed (hflushed.write (.encoded char) (by omega))

theorem Written.hardBreak (h : Written c content false) :
    Written c.writeQpHardBreak (content ++ ['\n']) false := by
  obtain ⟨hencodes, column, hfits⟩ := h.finish
  refine .flushed ⟨?_, hencodes.hardBreak, hfits.newline, Nat.zero_le 75⟩
  rw [writeQpHardBreak]
  cases h with
  | flushed h =>
      rw [writeQpPendingOutput, h.pendingOutput]
      exact h.pendingOutput
  | waiting hpending _ _ _ _ _ =>
      rw [writeQpPendingOutput, hpending]

/-- What the encoder has taken between two characters. Only a white space that waits for what comes next
has not been written yet. -/
structure Taken (c : EncodingContext) (content : List Char) : Prop where
  lwsp : ∀ w, c.pendingLwsp = some w → charLwsp w.val = true
  written : ∃ before trailing, Written c before trailing ∧ (trailing = true → c.pendingLwsp ≠ none)
    ∧ content = before ++ (c.pendingLwsp.map Subtype.val).toList

theorem qpEncoded_of_charLwsp {char : Char} (h : charLwsp char = true) : qpEncoded char = false := by
  rw [charLwsp] at h
  rw [qpEncoded, h, Bool.or_true]
  rfl

theorem Written.withPendingLwsp (h : Written c content trailing) (lwsp : Option Latin) :
    Written { c with pendingLwsp := lwsp } content trailing := by
  cases h with
  | flushed h => exact .flushed ⟨h.pendingOutput, h.encodes, h.fits, h.column⟩
  | waiting hpending hpiece hencodes hfits hcolumn hle =>
      exact .waiting hpending hpiece hencodes hfits hcolumn hle

theorem Taken.clearLwsp (h : Taken c content) :
    (∃ trailing, Written (c.encodeQpPendingLwsp true .partialLine) content trailing)
      ∧ (c.encodeQpPendingLwsp true .partialLine).pendingLwsp = none := by
  obtain ⟨before, trailing, hwritten, -, hcontent⟩ := h.written
  cases hlwsp : c.pendingLwsp with
  | none =>
      rw [hlwsp, map_none, toList_none, append_nil] at hcontent
      rw [encodeQpPendingLwsp_of_none hlwsp, hcontent]
      exact ⟨⟨trailing, hwritten⟩, hlwsp⟩
  | some w =>
      rw [hlwsp, map_some] at hcontent
      rw [encodeQpPendingLwsp, hlwsp, hcontent]
      exact ⟨⟨_, (hwritten.withPendingLwsp none).clear (qpEncoded_of_charLwsp (h.lwsp w hlwsp))⟩,
        (writeQpClear_fields _ _).2⟩

theorem Taken.encodeLwsp (h : Taken c content) (htype : type ≠ .partialLine) :
    Written (c.encodeQpPendingLwsp false type) content false
      ∧ (c.encodeQpPendingLwsp false type).pendingLwsp = none := by
  obtain ⟨before, trailing, hwritten, htrailing, hcontent⟩ := h.written
  cases hlwsp : c.pendingLwsp with
  | none =>
      rw [hlwsp, map_none, toList_none, append_nil] at hcontent
      rw [encodeQpPendingLwsp_of_none hlwsp, hcontent]
      cases trailing with
      | true => exact absurd hlwsp (htrailing rfl)
      | false => exact ⟨hwritten, hlwsp⟩
  | some w =>
      rw [hlwsp, map_some] at hcontent
      rw [encodeQpPendingLwsp, hlwsp, hcontent]
      simp only [Bool.false_eq_true, if_false, if_pos htype]
      exact ⟨(hwritten.withPendingLwsp none).encoded w, (writeQpEncoded_fields _ _).2⟩

theorem Taken.push (h : Taken c content) (char : Latin) : Taken (c.push char) (content ++ [char.val]) := by
  obtain ⟨⟨trailing, hwritten⟩, hnone⟩ := h.clearLwsp
  rw [EncodingContext.push]
  by_cases hlwsp : charLwsp char.val = true
  · rw [if_pos hlwsp]
    refine ⟨fun w hw => ?_, content, trailing, hwritten.withPendingLwsp _, nofun, rfl⟩
    cases hw
    exact hlwsp
  · rw [if_neg hlwsp]
    by_cases hencoded : qpEncoded char.val = true
    · rw [if_pos hencoded]
      have hlwsp' := (writeQpEncoded_fields _ char).2.trans hnone
      refine ⟨fun w hw => ?_, _, false, hwritten.encoded char, nofun, ?_⟩
      · rw [hlwsp'] at hw
        cases hw
      · rw [hlwsp']
        exact (append_nil _).symm
    · rw [if_neg hencoded]
      have hlwsp' := (writeQpClear_fields _ char).2.trans hnone
      refine ⟨fun w hw => ?_, _, _, hwritten.clear (Bool.not_eq_true _ ▸ hencoded), fun htrue => ?_, ?_⟩
      · rw [hlwsp'] at hw
        cases hw
      · exact absurd htrue hlwsp
      · rw [hlwsp']
        exact (append_nil _).symm

theorem Taken.pushNewline (h : Taken c content) : Taken c.pushNewline (content ++ ['\n']) := by
  obtain ⟨hwritten, hnone⟩ := h.encodeLwsp (by decide : LineType.lineEnd ≠ .partialLine)
  have hlwsp : c.pushNewline.pendingLwsp = none := by
    exact (writeQpPendingOutput_fields _ _).2.trans hnone
  refine ⟨fun w hw => ?_, _, false, hwritten.hardBreak, nofun, ?_⟩
  · rw [hlwsp] at hw
    cases hw
  · rw [hlwsp]
    exact (append_nil _).symm

theorem Taken.step (h : Taken c content) (char : Latin) : Taken (c.step char) (content ++ [char.val]) := by
  rw [EncodingContext.step]
  by_cases hnewline : c.text ∧ char.val = '\n'
  · rw [if_pos hnewline, hnewline.2]
    exact h.pushNewline
  · rw [if_neg hnewline]
    exact h.push char

theorem Taken.foldl (h : Taken c content) (chars : List Latin) :
    Taken (chars.foldl EncodingContext.step c) (content ++ chars.map Subtype.val) := by
  induction chars generalizing c content with
  | nil =>
      rw [map_nil, append_nil]
      exact h
  | cons char chars ih =>
      rw [map_cons, append_cons]
      exact ih (h.step char)

theorem taken_initial (text : Bool) : Taken (.initial text) [] :=
  ⟨nofun, [], false, .flushed ⟨rfl, .nil, .nil, Nat.zero_le 75⟩, nofun, rfl⟩

theorem encodes_encode (mode : Bool) (packets : List (List Latin)) :
    Encodes (encode mode packets) (packets.flatten.map Subtype.val) false
      ∧ ∃ column, Fits (encode mode packets) column := by
  have htaken := (taken_initial mode).foldl packets.flatten
  rw [encode, EncodingContext.updates_eq]
  exact (htaken.encodeLwsp (by decide)).1.finish

/-! ## Lines -/

theorem suffix_concat {α : Type} {l : List α} {a : α} {part : List α} (h : part <:+ l ++ [a]) :
    part = [] ∨ ∃ part', part = part' ++ [a] ∧ part' <:+ l := by
  obtain ⟨before, hbefore⟩ := h
  rcases eq_nil_or_concat part with rfl | ⟨part', b, rfl⟩
  · exact .inl rfl
  · rw [concat_eq_append, ← append_assoc] at hbefore
    obtain ⟨hl, ha⟩ := append_inj' hbefore rfl
    cases ha
    exact .inr ⟨part', concat_eq_append, before, hl⟩

theorem Fits.length_le (h : Fits text column) : column ≤ 76
    ∧ (∀ part, part <:+ text → '\n' ∉ part → part.length ≤ column)
    ∧ ∀ part, part <:+: text → '\n' ∉ part → part.length ≤ 76 := by
  induction h with
  | nil =>
      refine ⟨Nat.zero_le 76, fun part hpart _ => ?_, fun part hpart _ => ?_⟩
      · rw [suffix_nil.mp hpart, length_nil]
      · rw [infix_nil.mp hpart]
        exact Nat.zero_le 76
  | @char text column char h hchar hle ih =>
      obtain ⟨-, hsuffix, hinfix⟩ := ih
      have hlast : ∀ part, part <:+ text ++ [char] → '\n' ∉ part → part.length ≤ column + 1 := by
        intro part hpart hnewline
        rcases suffix_concat hpart with rfl | ⟨part', rfl, hpart'⟩
        · exact Nat.zero_le _
        · have := hsuffix part' hpart' fun hmem => hnewline (mem_append_left _ hmem)
          rw [length_append, length_singleton]
          omega
      refine ⟨hle, hlast, fun part hpart hnewline => ?_⟩
      rcases infix_concat_iff.mp hpart with hpart | hpart
      · exact (hlast part hpart hnewline).trans hle
      · exact hinfix part hpart hnewline
  | @newline text column h ih =>
      obtain ⟨-, -, hinfix⟩ := ih
      have hlast : ∀ part, part <:+ text ++ ['\n'] → '\n' ∉ part → part.length ≤ 0 := by
        intro part hpart hnewline
        rcases suffix_concat hpart with rfl | ⟨part', rfl, -⟩
        · exact Nat.le_refl 0
        · exact absurd (mem_append_right part' (mem_singleton_self _)) hnewline
      refine ⟨Nat.zero_le 76, hlast, fun part hpart hnewline => ?_⟩
      rcases infix_concat_iff.mp hpart with hpart | hpart
      · exact (hlast part hpart hnewline).trans (Nat.zero_le 76)
      · exact hinfix part hpart hnewline

/-- White space that stands for itself has something after it on the line. -/
def Spaced (text : List Char) (trailing : Bool) : Prop :=
  ∀ before w after, text = before ++ w :: after → charLwsp w = true →
    (trailing = true ∧ after = []) ∨ ∃ char rest, after = char :: rest ∧ char ≠ '\n'

theorem Spaced.append (h : Spaced text trailing)
    (hfirst : trailing = true → ∃ char rest, piece = char :: rest ∧ char ≠ '\n')
    (hpiece : ∀ xs w ys, piece = xs ++ w :: ys → charLwsp w = true → after = true ∧ ys = []) :
    Spaced (text ++ piece) after := by
  intro before w rest heq hw
  rcases append_eq_append_iff.mp heq with ⟨xs, -, hxs⟩ | ⟨ys, htext, hys⟩
  · exact .inl (hpiece xs w rest hxs hw)
  · cases ys with
    | nil => exact .inl (hpiece [] w rest hys.symm hw)
    | cons y ys =>
        obtain ⟨rfl, rfl⟩ := hys
        rcases h before w ys htext hw with ⟨htrailing, rfl⟩ | ⟨char, rest', rfl, hchar⟩
        · exact .inr (hfirst htrailing)
        · exact .inr ⟨char, rest' ++ piece, rfl, hchar⟩

theorem no_lwsp (h : ∀ char ∈ piece, charLwsp char = false)
    (xs : List Char) (w : Char) (ys : List Char) (heq : piece = xs ++ w :: ys) (hw : charLwsp w = true) :
    after = true ∧ ys = [] := by
  rw [h w (heq ▸ mem_append_right xs mem_cons_self)] at hw
  cases hw

theorem Encodes.spaced (h : Encodes text content trailing) : Spaced text trailing := by
  induction h with
  | nil =>
      intro before w after heq hw
      cases before <;> cases heq
  | @clear text content trailing char h hclear ih =>
      refine ih.append (fun _ => ⟨char, [], rfl, ?_⟩) fun xs w ys heq hw => ?_
      · intro hnewline
        rw [hnewline] at hclear
        exact absurd hclear (by decide)
      · cases xs with
        | nil =>
            cases heq
            exact ⟨hw, rfl⟩
        | cons x xs =>
            have hlength := congrArg List.length heq
            rw [length_singleton, length_append, length_cons, length_cons] at hlength
            omega
  | @encoded text content trailing char h ih =>
      obtain ⟨hhigh, hlow⟩ := digits_lt char
      refine ih.append (fun _ => ⟨'=', _, rfl, by decide⟩) (no_lwsp fun c hc => ?_)
      simp only [QuotedPrintable.encoded, mem_cons, not_mem_nil, or_false] at hc
      rcases hc with rfl | rfl | rfl
      · decide
      · exact (digitToChar_ne _ hhigh).2
      · exact (digitToChar_ne _ hlow).2
  | softBreak h ih =>
      refine ih.append (fun _ => ⟨'=', _, rfl, by decide⟩) (no_lwsp fun c hc => ?_)
      simp only [mem_cons, not_mem_nil, or_false] at hc
      rcases hc with rfl | rfl <;> rfl
  | hardBreak h ih =>
      refine ih.append nofun (no_lwsp fun c hc => ?_)
      rw [mem_singleton.mp hc]
      rfl

/-! ## Decoding character by character -/

/-- White space that was waiting is written. -/
def DecodingContext.settle (d : DecodingContext) : DecodingContext :=
  match d.pending with
  | some (.string string) => ⟨d.port ++ string, none⟩
  | _ => d

/-- What a character does to a decoder, if it may come next. -/
def DecodingContext.scan (d : DecodingContext) (char : Char) : Option DecodingContext :=
  match d.pending with
  | some (.char pending) =>
      if pending = '=' then
        if char = '\n' then some { d with pending := none }
        else if (charToDigit char).isSome then some { d with pending := some (.char char) }
        else none
      else
        match decodeQpHex pending char with
        | .ok char => some ⟨d.port ++ [char], none⟩
        | .error _ => none
  | some (.string string) =>
      if charLwsp char then some { d with pending := some (.string (string ++ [char])) }
      else if char = '=' then some ⟨d.port ++ string, some (.char '=')⟩
      else if qpEncoded char then none
      else some ⟨d.port ++ string ++ [char], none⟩
  | none =>
      if charLwsp char then some { d with pending := some (.string [char]) }
      else if char = '=' then some { d with pending := some (.char '=') }
      else if char = '\n' then some ⟨d.port ++ ['\n'], none⟩
      else if qpEncoded char then none
      else some ⟨d.port ++ [char], none⟩

/-- What some characters do to a decoder. -/
def DecodingContext.scanAll (d : DecodingContext) (chars : List Char) : Option DecodingContext :=
  chars.foldlM DecodingContext.scan d

theorem DecodingContext.scanAll_append (d : DecodingContext) (chars rest : List Char) :
    d.scanAll (chars ++ rest) = (d.scanAll chars).bind fun d => d.scanAll rest := foldlM_append

theorem DecodingContext.scanAll_cons (d : DecodingContext) (char : Char) (rest : List Char) :
    d.scanAll (char :: rest) = (d.scan char).bind fun d => d.scanAll rest := foldlM_cons

theorem DecodingContext.scanAll_cons_some {char : Char} {rest : List Char} :
    d.scanAll (char :: rest) = some d' ↔ ∃ d1, d.scan char = some d1 ∧ d1.scanAll rest = some d' := by
  rw [scanAll_cons, bind_eq_some_iff]

theorem DecodingContext.scanAll_append_some {rest : List Char} :
    d.scanAll (chars ++ rest) = some d' ↔ ∃ d1, d.scanAll chars = some d1 ∧ d1.scanAll rest = some d' := by
  rw [scanAll_append, bind_eq_some_iff]

/-- Between the parts of an encoding only white space is pending. -/
structure DecodingContext.Has (d : DecodingContext) (content : List Char) (trailing : Bool) : Prop where
  settle : d.settle = ⟨content, none⟩
  pending : trailing = false → d.pending = none

theorem DecodingContext.Has.cases (h : d.Has content trailing) :
    d = ⟨content, none⟩ ∨ ∃ port string, d = ⟨port, some (.string string)⟩ ∧ content = port ++ string
      ∧ trailing = true := by
  obtain ⟨port, pending⟩ := d
  obtain ⟨hsettle, hpending⟩ := h
  rcases pending with - | ⟨char⟩ | ⟨string⟩
  · cases hsettle
    exact .inl rfl
  · cases hsettle
  · cases hsettle
    refine .inr ⟨port, string, rfl, rfl, ?_⟩
    cases trailing with
    | true => rfl
    | false => cases hpending rfl

/-- No escape is pending. -/
def DecodingContext.Open (d : DecodingContext) : Prop := ∀ char, d.pending ≠ some (.char char)

theorem DecodingContext.scan_eq {char : Char} (hopen : d.Open) (hnewline : char ≠ '\n') (hlwsp : ¬charLwsp char = true) :
    d.scan char = if char = '=' then some ⟨d.settle.port, some (.char '=')⟩
      else if qpEncoded char then none else some ⟨d.settle.port ++ [char], none⟩ := by
  obtain ⟨port, pending⟩ := d
  rcases pending with - | ⟨pending⟩ | ⟨string⟩
  · simp only [DecodingContext.scan, if_neg hlwsp, if_neg hnewline]
    rfl
  · exact absurd rfl (hopen pending)
  · simp only [DecodingContext.scan, if_neg hlwsp]
    rfl

theorem DecodingContext.scan_space {char : Char} (hopen : d.Open) (hlwsp : charLwsp char = true) :
    ∃ string, d.scan char = some ⟨d.port, some (.string (string ++ [char]))⟩ ∧ d.settle = ⟨d.port ++ string, none⟩
      ∧ ∀ rest, decodeQpPendingString d.pending (char :: rest) = .ok (some (.string (string ++ char :: rest))) := by
  obtain ⟨port, pending⟩ := d
  rcases pending with - | ⟨pending⟩ | ⟨string⟩
  · exact ⟨[], if_pos hlwsp, by rw [append_nil]; rfl, fun _ => rfl⟩
  · exact absurd rfl (hopen pending)
  · exact ⟨string, if_pos hlwsp, rfl, fun _ => rfl⟩

theorem DecodingContext.Has.clear (h : d.Has content trailing) {char : Char}
    (hclear : qpEncoded char = false) :
    ∃ d', d.scan char = some d' ∧ d'.Has (content ++ [char]) (charLwsp char) := by
  have hne : ∀ other, qpEncoded other = true → char ≠ other := by
    rintro other hother rfl
    rw [hother] at hclear
    cases hclear
  have hopen : d.Open := by
    rcases h.cases with rfl | ⟨port, string, rfl, -, -⟩ <;> exact nofun
  by_cases hlwsp : charLwsp char = true
  · obtain ⟨string, hd, hsettle, -⟩ := scan_space hopen hlwsp
    cases hsettle.symm.trans h.settle
    refine ⟨_, hd, ?_, fun hfalse => by rw [hlwsp] at hfalse; cases hfalse⟩
    rw [DecodingContext.settle, append_assoc]
  · refine ⟨⟨content ++ [char], none⟩, ?_, rfl, fun _ => rfl⟩
    rw [scan_eq hopen (hne _ rfl) hlwsp, if_neg (hne _ rfl), h.settle, hclear]
    rfl

theorem DecodingContext.Has.equals (h : d.Has content trailing) :
    d.scan '=' = some ⟨content, some (.char '=')⟩ := by
  rcases h.cases with rfl | ⟨port, string, rfl, rfl, -⟩ <;> rfl

theorem Encodes.scanAll (h : Encodes text content trailing) :
    ∃ d, DecodingContext.initial.scanAll text = some d ∧ d.Has content trailing := by
  induction h with
  | nil => exact ⟨_, rfl, rfl, fun _ => rfl⟩
  | @clear text content trailing char h hclear ih =>
      obtain ⟨d, hd, hhas⟩ := ih
      obtain ⟨d', hd', hhas'⟩ := hhas.clear hclear
      refine ⟨d', ?_, hhas'⟩
      rw [scanAll_append, hd, bind_some, scanAll_cons, hd']
      rfl
  | @encoded text content trailing char h ih =>
      obtain ⟨d, hd, hhas⟩ := ih
      obtain ⟨hhigh, hlow⟩ := digits_lt char
      have hdigit := charToDigit_digitToChar _ hhigh
      have hequals : digitToChar (char.val.toNat >>> 4) ≠ '=' := by
        intro heq
        rw [heq] at hdigit
        cases hdigit
      refine ⟨⟨content ++ [char.val], none⟩, ?_, rfl, fun _ => rfl⟩
      rw [scanAll_append, hd, bind_some, QuotedPrintable.encoded,
        scanAll_cons, hhas.equals, bind_some, scanAll_cons,
        DecodingContext.scan]
      simp only [if_true, if_neg (digitToChar_ne _ hhigh).1, hdigit, isSome_some, bind_some]
      rw [scanAll_cons, DecodingContext.scan]
      simp only [if_neg hequals, decodeQpHex_digits, bind_some]
      rfl
  | @softBreak text content trailing h ih =>
      obtain ⟨d, hd, hhas⟩ := ih
      refine ⟨⟨content, none⟩, ?_, rfl, fun _ => rfl⟩
      rw [scanAll_append, hd, bind_some, scanAll_cons, hhas.equals]
      rfl
  | @hardBreak text content h ih =>
      obtain ⟨d, hd, hhas⟩ := ih
      refine ⟨⟨content ++ ['\n'], none⟩, ?_, rfl, fun _ => rfl⟩
      rw [scanAll_append, hd]
      rcases hhas.cases with rfl | ⟨port, string, -, -, htrailing⟩
      · rfl
      · cases htrailing

/-! ## Decoding packets -/

theorem DecodingContext.scan_open {char : Char} (hopen : d.Open) (hnewline : char ≠ '\n')
    (hscan : d.scan char = some d') :
    (char = '=' ∧ d' = ⟨d.settle.port, some (.char '=')⟩)
      ∨ (qpEncoded char = false ∧ d'.Open ∧ d'.settle = ⟨d.settle.port ++ [char], none⟩) := by
  by_cases hlwsp : charLwsp char = true
  · obtain ⟨string, hd, hsettle, -⟩ := scan_space hopen hlwsp
    cases hd.symm.trans hscan
    refine .inr ⟨qpEncoded_of_charLwsp hlwsp, nofun, ?_⟩
    rw [hsettle, append_assoc]
    rfl
  · rw [scan_eq hopen hnewline hlwsp] at hscan
    split at hscan
    · cases hscan
      exact .inl ⟨by assumption, rfl⟩
    split at hscan
    · cases hscan
    · rename_i hencoded
      cases hscan
      exact .inr ⟨Bool.not_eq_true _ ▸ hencoded, nofun, rfl⟩

theorem DecodingContext.scan_digit {port : List Char} {pending char : Char} (hpending : pending ≠ '=')
    (hscan : DecodingContext.scan ⟨port, some (.char pending)⟩ char = some d') :
    ∃ decoded, decodeQpHex pending char = .ok decoded ∧ d' = ⟨port ++ [decoded], none⟩ := by
  simp only [DecodingContext.scan, if_neg hpending] at hscan
  cases hhex : decodeQpHex pending char with
  | error e =>
      rw [hhex] at hscan
      cases hscan
  | ok decoded =>
      rw [hhex] at hscan
      cases hscan
      exact ⟨decoded, rfl, rfl⟩

theorem DecodingContext.scan_equals {port : List Char} {char : Char} (hnewline : char ≠ '\n')
    (hscan : DecodingContext.scan ⟨port, some (.char '=')⟩ char = some d') :
    (charToDigit char).isSome = true ∧ char ≠ '=' ∧ d' = ⟨port, some (.char char)⟩ := by
  simp only [DecodingContext.scan, if_true, if_neg hnewline] at hscan
  by_cases hdigit : (charToDigit char).isSome = true
  · rw [if_pos hdigit] at hscan
    cases hscan
    refine ⟨hdigit, fun heq => ?_, rfl⟩
    rw [heq] at hdigit
    exact absurd hdigit (by decide)
  · rw [if_neg hdigit] at hscan
    cases hscan

theorem DecodingContext.settle_of_open (h : d.Open) : d.settle = ⟨d.settle.port, none⟩ := by
  obtain ⟨port, pending⟩ := d
  rcases pending with - | ⟨char⟩ | ⟨string⟩
  · rfl
  · exact absurd rfl (h char)
  · rfl

theorem loop_scan (length : Nat) : ∀ chars : List Char, chars.length ≤ length → '\n' ∉ chars →
    (∀ d d', Open d → d.scanAll chars = some d' → d.settle.loop chars = .ok d'.settle)
      ∧ ∀ port d', DecodingContext.scanAll ⟨port, some (.char '=')⟩ chars = some d' →
        handleEquals ⟨port, none⟩ chars = .ok d'.settle := by
  induction length with
  | zero =>
      intro chars hlength _
      obtain rfl := length_eq_zero_iff.mp (Nat.le_zero.mp hlength)
      refine ⟨fun d d' _ hscan => ?_, fun port d' hscan => ?_⟩
      · cases hscan
        rfl
      · cases hscan
        rfl
  | succ length ih =>
      intro chars hlength hnewline
      refine ⟨fun d d' hopen hscan => ?_, fun port d' hscan => ?_⟩
      · cases chars with
        | nil =>
            cases hscan
            rfl
        | cons char rest =>
            have hrest : rest.length ≤ length := Nat.le_of_succ_le_succ hlength
            have hnewline' : '\n' ∉ rest := fun hmem => hnewline (mem_cons_of_mem char hmem)
            have hchar : char ≠ '\n' := fun heq => hnewline (heq ▸ mem_cons_self)
            obtain ⟨d1, hd1, hscan⟩ := scanAll_cons_some.mp hscan
            rw [settle_of_open hopen, DecodingContext.loop]
            rcases scan_open hopen hchar hd1 with ⟨rfl, rfl⟩ | ⟨hclear, hopen1, hsettle1⟩
            · exact (ih rest hrest hnewline').2 _ _ hscan
            · rw [if_neg (by rw [hclear]; decide)]
              have hloop := (ih rest hrest hnewline').1 d1 d' hopen1 hscan
              rw [hsettle1] at hloop
              exact hloop
      · cases chars with
        | nil =>
            cases hscan
            rfl
        | cons c1 rest =>
            have hc1 : c1 ≠ '\n' := fun heq => hnewline (heq ▸ mem_cons_self)
            obtain ⟨d1, hd1, hscan⟩ := scanAll_cons_some.mp hscan
            obtain ⟨hdigit, hequals, rfl⟩ := scan_equals hc1 hd1
            cases rest with
            | nil =>
                cases hscan
                rw [handleEquals, if_pos hdigit]
                rfl
            | cons c2 rest =>
                obtain ⟨d2, hd2, hscan⟩ := scanAll_cons_some.mp hscan
                obtain ⟨decoded, hhex, rfl⟩ := scan_digit hequals hd2
                rw [handleEquals, hhex]
                have hrest : rest.length ≤ length := by
                  rw [length_cons, length_cons] at hlength
                  omega
                have hnewline' : '\n' ∉ rest := fun hmem =>
                  hnewline (mem_cons_of_mem c1 (mem_cons_of_mem c2 hmem))
                exact (ih rest hrest hnewline').1 ⟨port ++ [decoded], none⟩ d' nofun hscan

theorem DecodingContext.scan_settle {char : Char} (hlwsp : charLwsp char = false)
    (hscan : d.scan char = some d') : d'.settle = d' := by
  obtain ⟨port, pending⟩ := d
  rcases pending with - | ⟨pending⟩ | ⟨string⟩
  · simp only [DecodingContext.scan, hlwsp, Bool.false_eq_true, if_false] at hscan
    split_ifs at hscan <;> cases hscan <;> rfl
  · by_cases hequals : pending = '='
    · simp only [DecodingContext.scan] at hscan
      split_ifs at hscan <;> cases hscan <;> rfl
    · obtain ⟨decoded, -, rfl⟩ := scan_digit hequals hscan
      rfl
  · simp only [DecodingContext.scan, hlwsp, Bool.false_eq_true, if_false] at hscan
    split_ifs at hscan <;> cases hscan <;> rfl

theorem DecodingContext.scan_lwsp {lwsp : List Char} (hlwsp : ∀ char ∈ lwsp, charLwsp char = true)
    (hscan : d.scanAll lwsp = some d') :
    d'.port = d.port ∧ decodeQpPendingString d.pending lwsp = .ok d'.pending
      ∧ (lwsp ≠ [] → ∃ string, d'.pending = some (.string string)) := by
  induction lwsp generalizing d with
  | nil =>
      cases hscan
      exact ⟨rfl, rfl, fun h => absurd rfl h⟩
  | cons char rest ih =>
      have hchar := hlwsp char mem_cons_self
      have hrest : ∀ c ∈ rest, charLwsp c = true := fun c hc => hlwsp c (mem_cons_of_mem char hc)
      obtain ⟨d1, hd1, hscan⟩ := scanAll_cons_some.mp hscan
      obtain ⟨hport, hpending, hsome⟩ := ih hrest hscan
      by_cases hopen : d.Open
      · obtain ⟨string, hd, -, hstring⟩ := scan_space hopen hchar
        cases hd.symm.trans hd1
        refine ⟨hport, ?_, fun _ => ?_⟩
        · rw [hstring, ← hpending, decodeQpPendingString]
          split
          · rename_i hnil
            rw [hnil]
          · rw [append_assoc]
            rfl
        · cases rest with
          | nil =>
              cases hscan
              exact ⟨_, rfl⟩
          | cons char' rest => exact hsome (cons_ne_nil _ _)
      · obtain ⟨port, pending⟩ := d
        obtain ⟨pending, rfl⟩ : ∃ escape, pending = some (.char escape) := by
          simpa [DecodingContext.Open] using hopen
        have hspace : char = ' ' ∨ char = '\t' := by
          rw [charLwsp] at hchar
          simpa using hchar
        by_cases hequals : pending = '='
        · subst hequals
          rcases hspace with rfl | rfl <;> cases hd1
        · obtain ⟨decoded, hhex, -⟩ := scan_digit hequals hd1
          have hdigit : charToDigit char = none := by rcases hspace with rfl | rfl <;> decide
          rw [decodeQpHex, hdigit] at hhex
          cases hfirst : charToDigit pending <;> rw [hfirst] at hhex <;> cases hhex

theorem DecodingContext.resume_eq (hnewline : '\n' ∉ chars)
    (hscan : d.scanAll (skipLwspBackwards chars) = some d') :
    d.resume (skipLwspBackwards chars) = .ok d' := by
  have hnewline' : '\n' ∉ skipLwspBackwards chars := fun hmem =>
    hnewline ((List.rdropWhile_prefix charLwsp chars).subset hmem)
  rcases eq_nil_or_concat (skipLwspBackwards chars) with hnil | ⟨front, last, hlast⟩
  · rw [hnil] at hscan ⊢
    cases hscan
    obtain ⟨port, pending⟩ := d
    rcases pending with - | ⟨pending⟩ | ⟨string⟩ <;> rfl
  · -- nothing is pending but an escape at the end
    have hsettle : d'.settle = d' := by
      have hlwsp : charLwsp last = false := by
        have hne : skipLwspBackwards chars ≠ [] := by
          rw [hlast, concat_eq_append]
          exact append_ne_nil_of_right_ne_nil _ (cons_ne_nil _ _)
        have hdrop := rdropWhile_last_not charLwsp chars hne
        have hget : (List.rdropWhile charLwsp chars).getLast hne = last := by
          have heq : List.rdropWhile charLwsp chars = front ++ [last] :=
            hlast.trans concat_eq_append
          simp only [heq, getLast_append_singleton]
        rw [hget] at hdrop
        exact Bool.not_eq_true _ ▸ hdrop
      rw [hlast, concat_eq_append] at hscan
      obtain ⟨d1, -, hscan⟩ := scanAll_append_some.mp hscan
      obtain ⟨d2, hd2, hscan⟩ := scanAll_cons_some.mp hscan
      cases hscan
      exact scan_settle hlwsp hd2
    generalize skipLwspBackwards chars = line at hscan hnewline' hlast ⊢
    obtain ⟨hloop, hequals⟩ := loop_scan line.length line le_rfl hnewline'
    rw [← hsettle]
    cases line with
    | nil => cases front <;> cases hlast
    | cons c2 rest =>
        obtain ⟨port, pending⟩ := d
        rcases pending with - | ⟨pending⟩ | ⟨string⟩
        · exact hloop ⟨port, none⟩ d' nofun hscan
        · by_cases hpending : pending = '='
          · subst hpending
            exact hequals port d' hscan
          · obtain ⟨d1, hd1, hscan⟩ := scanAll_cons_some.mp hscan
            obtain ⟨decoded, hhex, rfl⟩ := scan_digit hpending hd1
            have hnewline1 : '\n' ∉ rest := fun hmem => hnewline' (mem_cons_of_mem c2 hmem)
            simp only [DecodingContext.resume, if_neg hpending, hhex]
            exact (loop_scan rest.length rest le_rfl hnewline1).1 ⟨port ++ [decoded], none⟩ d' nofun hscan
        · exact hloop ⟨port, some (.string string)⟩ d' nofun hscan

theorem rdropWhile_append_rtakeWhile {α : Type} (p : α → Bool) (l : List α) :
    l.rdropWhile p ++ l.rtakeWhile p = l := by
  rw [List.rdropWhile, List.rtakeWhile, ← reverse_append, takeWhile_append_dropWhile,
    reverse_reverse]

theorem DecodingContext.decodeQp_partial (hnewline : '\n' ∉ chars)
    (hscan : d.scanAll chars = some d') : d.decodeQp chars .partialLine = .ok d' := by
  rw [← rdropWhile_append_rtakeWhile charLwsp chars] at hscan
  obtain ⟨d1, hd1, hscan⟩ := scanAll_append_some.mp hscan
  have hlwsp : ∀ char ∈ chars.rtakeWhile charLwsp, charLwsp char = true := fun char =>
    mem_rtakeWhile_imp
  obtain ⟨hport, hpending, -⟩ := scan_lwsp hlwsp hscan
  rw [decodeQp, resume_eq hnewline hd1]
  simp only [bind, Except.bind, DecodingContext.finish, if_true, hpending]
  rw [← hport]

theorem DecodingContext.decodeQp_line (hnewline : '\n' ∉ chars)
    (hscan : d.scanAll (chars ++ ['\n']) = some d') :
    d.decodeQp (skipLwspBackwards chars) .lineEnd = .ok d' := by
  obtain ⟨d2, hd2, hscan⟩ := scanAll_append_some.mp hscan
  obtain ⟨d3, hd3, hscan⟩ := scanAll_cons_some.mp hscan
  cases hscan
  have hlwsp : ∀ char ∈ chars.rtakeWhile charLwsp, charLwsp char = true := fun char =>
    mem_rtakeWhile_imp
  rw [← rdropWhile_append_rtakeWhile charLwsp chars] at hd2
  obtain ⟨d1, hd1, hd2⟩ := scanAll_append_some.mp hd2
  obtain ⟨-, -, hstring⟩ := scan_lwsp hlwsp hd2
  by_cases hnil : chars.rtakeWhile charLwsp = []
  · rw [hnil] at hd2
    cases hd2
    have hwhole : skipLwspBackwards chars = chars := by
      have happend := rdropWhile_append_rtakeWhile charLwsp chars
      rwa [hnil, append_nil] at happend
    rw [hwhole, decodeQp, resume_eq hnewline hd1]
    obtain ⟨port, pending⟩ := d2
    rcases pending with - | ⟨pending⟩ | ⟨string⟩
    · cases hd3
      rfl
    · by_cases hequals : pending = '='
      · subst hequals
        cases hd3
        rfl
      · obtain ⟨decoded, hhex, -⟩ := scan_digit hequals hd3
        rw [decodeQpHex] at hhex
        cases hfirst : charToDigit pending <;> rw [hfirst] at hhex <;> cases hhex
    · cases hd3
  · -- white space may not come before the end of a line
    obtain ⟨string, hpending⟩ := hstring hnil
    obtain ⟨port, pending⟩ := d2
    cases hpending
    cases hd3

theorem DecodingContext.updateLines_eq {line : List Char} (hnewline : '\n' ∉ line)
    (hscan : d.scanAll (line ++ chars) = some d') : d.updateLines line chars = .ok d' := by
  induction chars generalizing d line with
  | nil =>
      rw [append_nil] at hscan
      exact decodeQp_partial hnewline hscan
  | cons char rest ih =>
      rw [append_cons] at hscan
      rw [updateLines]
      by_cases hchar : char = '\n'
      · subst hchar
        obtain ⟨d1, hd1, hscan⟩ := scanAll_append_some.mp hscan
        rw [decodeQp_line hnewline hd1]
        exact ih not_mem_nil hscan
      · rw [if_neg hchar]
        refine ih (fun hmem => ?_) hscan
        rcases mem_append.mp hmem with hmem | hmem
        · exact hnewline hmem
        · exact hchar (mem_singleton.mp hmem).symm

theorem DecodingContext.updates_eq {packets : List (List Char)}
    (hscan : d.scanAll packets.flatten = some d') : packets.foldlM DecodingContext.update d = .ok d' := by
  induction packets generalizing d with
  | nil =>
      cases hscan
      rfl
  | cons chars packets ih =>
      rw [flatten_cons] at hscan
      obtain ⟨d1, hd1, hscan⟩ := scanAll_append_some.mp hscan
      rw [foldlM_cons, DecodingContext.update, updateLines_eq not_mem_nil hd1]
      exact ih hscan

/-- However a string is cut into packets, and however its encoding is cut again, the decoder gets the
string back. No line of the encoding has more than 76 characters, and none ends in white space that is
not encoded. -/
theorem quotedPrintable_round_trip (mode : Bool) (packets : List (List Latin)) (pieces : List (List Char))
    (hpieces : pieces.flatten = encode mode packets) :
    decode pieces = .ok (packets.flatten.map Subtype.val)
      ∧ (∀ line, line <:+: encode mode packets → '\n' ∉ line → line.length ≤ 76)
      ∧ ∀ before w after, encode mode packets = before ++ w :: after → charLwsp w = true →
        ∃ char rest, after = char :: rest ∧ char ≠ '\n' := by
  obtain ⟨hencodes, column, hfits⟩ := encodes_encode mode packets
  refine ⟨?_, hfits.length_le.2.2, fun before w after heq hw => ?_⟩
  · obtain ⟨d, hscan, hhas⟩ := hencodes.scanAll
    rw [← hpieces] at hscan
    rw [decode, DecodingContext.updates_eq hscan]
    rcases hhas.cases with rfl | ⟨-, -, -, -, htrailing⟩
    · rfl
    · cases htrailing
  · rcases hencodes.spaced before w after heq hw with ⟨htrailing, -⟩ | hafter
    · cases htrailing
    · exact hafter

theorem quotedPrintable_round_trip_latin :
    [['a', '='], ['2', '0', '\n', '='], ['e', '9']].flatten
        = encode true [[⟨'a', by decide⟩, ⟨' ', by decide⟩], [⟨'\n', by decide⟩, ⟨'é', by decide⟩]]
      ∧ decode [['a', '='], ['2', '0', '\n', '='], ['e', '9']] = .ok ['a', ' ', '\n', 'é'] :=
  ⟨by decide +kernel, (quotedPrintable_round_trip true
    [[⟨'a', by decide⟩, ⟨' ', by decide⟩], [⟨'\n', by decide⟩, ⟨'é', by decide⟩]] _ (by decide +kernel)).1⟩

end MitScheme.QuotedPrintable
