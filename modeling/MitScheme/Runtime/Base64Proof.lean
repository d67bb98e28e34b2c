import MitScheme.Lib.Bits
import MitScheme.Lib.Results
import MitScheme.Runtime.Base64

/-!
# Base64 round trips

The encoder is a loop over single bytes, however they are cut into packets, and what it has written is a
list of lines. The decoder gets back the bytes of a line, wherever the line is cut.
-/

namespace MitScheme.Base64

open EncodingContext DecodingContext List
open DecodingContext (loop write)

variable {c : EncodingContext} {d : DecodingContext} {b : UInt8} {bytes rest : List UInt8}
  {chars : List Char}

theorem charToDigit_digitToChar : ∀ n < 64, charToDigit (digitToChar n) = n := by decide +kernel

theorem digitToChar_ne : ∀ n < 64, digitToChar n ≠ '=' ∧ digitToChar n ≠ '\n' := by decide +kernel

theorem and_0x3F (n : Nat) : 0x3F &&& n = n % 64 := by
  rw [Nat.and_comm]
  exact and_mask n 6

theorem and_0xFF (n : Nat) : 0xFF &&& n = n % 256 := by
  rw [Nat.and_comm]
  exact and_mask n 8

theorem charToDigit_writeDigit (n : Nat) : charToDigit (writeDigit n) = n % 64 := by
  rw [writeDigit, and_0x3F]
  exact charToDigit_digitToChar _ (Nat.mod_lt n (by decide))

theorem writeDigit_ne (n : Nat) : writeDigit n ≠ '=' ∧ writeDigit n ≠ '\n' := by
  rw [writeDigit, and_0x3F]
  exact digitToChar_ne _ (Nat.mod_lt n (by decide))

theorem decodeBase64Char_writeDigit (n : Nat) : decodeBase64Char (writeDigit n) = .ok (n % 64) := by
  rw [decodeBase64Char, charToDigit_writeDigit, if_neg (by omega)]

theorem ofNat_of_eq {n : Nat} (h : n = b.toNat) : UInt8.ofNat n = b := by
  rw [h]
  exact UInt8.ofNat_toNat

theorem quantum_three (a b c : UInt8) :
    decodeBase64Quantum1 (writeDigit (a.toNat >>> 2)) (writeDigit (a.toNat <<< 4 ||| b.toNat >>> 4))
      (writeDigit (b.toNat <<< 2 ||| c.toNat >>> 6)) (writeDigit c.toNat) = .ok [a, b, c] := by
  have ha := a.toNat_lt
  have hb := b.toNat_lt
  have hc := c.toNat_lt
  have hb4 : b.toNat >>> 4 < 2 ^ 4 := by
    omega
  have hc6 : c.toNat >>> 6 < 2 ^ 2 := by
    omega
  rw [shiftLeft_or_eq hb4, shiftLeft_or_eq hc6]
  simp only [decodeBase64Quantum1, decodeBase64Char_writeDigit, (writeDigit_ne _).1, ne_eq,
    not_false_eq_true, if_true, bind, Except.bind, Nat.shiftLeft_eq, Nat.shiftRight_eq_div_pow, and_0xFF]
  refine congrArg Except.ok (congrArg₂ List.cons (ofNat_of_eq ?_) (congrArg₂ List.cons (ofNat_of_eq ?_)
    (congrArg₂ List.cons (ofNat_of_eq ?_) rfl)))
  · omega
  · omega
  · omega

theorem quantum_two (a b : UInt8) :
    decodeBase64Quantum1 (writeDigit (a.toNat >>> 2)) (writeDigit (a.toNat <<< 4 ||| b.toNat >>> 4))
      (writeDigit (b.toNat <<< 2)) '=' = .ok [a, b] := by
  have ha := a.toNat_lt
  have hb := b.toNat_lt
  have hb4 : b.toNat >>> 4 < 2 ^ 4 := by
    omega
  rw [shiftLeft_or_eq hb4]
  simp only [decodeBase64Quantum1, decodeBase64Char_writeDigit, (writeDigit_ne _).1, ne_eq,
    not_false_eq_true, not_true_eq_false, if_true, if_false, bind, Except.bind, Nat.shiftLeft_eq,
    Nat.shiftRight_eq_div_pow, and_0xFF]
  refine congrArg Except.ok (congrArg₂ List.cons (ofNat_of_eq ?_) (congrArg₂ List.cons (ofNat_of_eq ?_) rfl))
  · omega
  · omega

theorem quantum_one (a : UInt8) :
    decodeBase64Quantum1 (writeDigit (a.toNat >>> 2)) (writeDigit (a.toNat <<< 4)) '=' '=' = .ok [a] := by
  have ha := a.toNat_lt
  simp only [decodeBase64Quantum1, decodeBase64Char_writeDigit, ne_eq, not_true_eq_false, if_false, bind,
    Except.bind, Nat.shiftLeft_eq, Nat.shiftRight_eq_div_pow]
  refine congrArg Except.ok (congrArg₂ List.cons (ofNat_of_eq ?_) rfl)
  omega

/-! ## Encoding -/

/-- A byte is encoded. -/
def EncodingContext.push (c : EncodingContext) (b : UInt8) : EncodingContext := c.fill [b]

/-- The bytes of a packet in text mode, with the returns that are added. -/
def canonical (text : Bool) (bytes : List UInt8) : List UInt8 :=
  if text then bytes.flatMap fun b => if b = cpNewline then bvCrlf else [b] else bytes

theorem EncodingContext.ext_of {c c' : EncodingContext} (hport : c.port = c'.port) (htext : c.text = c'.text)
    (hbuffer : c.buffer = c'.buffer) : c = c' := by
  cases c
  cases hport
  cases htext
  cases hbuffer
  rfl

theorem EncodingContext.fill_nil (c : EncodingContext) : c.fill [] = c := by
  have hne : ¬ (c.buffer ++ ([] : List UInt8).take (48 - c.buffer.length)).length = 48 := by
    rw [take_nil, append_nil]
    exact c.room.ne
  rw [EncodingContext.fill, dif_neg hne]
  refine ext_of rfl rfl ?_
  dsimp only
  rw [take_nil, append_nil]

theorem EncodingContext.fill_of_full (h : c.buffer.length + bytes.length = 48) :
    c.fill bytes = ⟨writeBase64Line c.port (c.buffer ++ bytes), c.text, [], by decide⟩ := by
  have htake : bytes.take (48 - c.buffer.length) = bytes := take_of_length_le (by omega)
  have hfull : (c.buffer ++ bytes.take (48 - c.buffer.length)).length = 48 := by
    rw [htake, length_append, h]
  rw [EncodingContext.fill, dif_pos hfull]
  exact ext_of (by rw [htake]) rfl rfl

theorem EncodingContext.fill_of_lt (h : (c.buffer ++ bytes).length < 48) :
    c.fill bytes = ⟨c.port, c.text, c.buffer ++ bytes, h⟩ := by
  have hlength := h
  rw [length_append] at hlength
  have htake : bytes.take (48 - c.buffer.length) = bytes := take_of_length_le (by omega)
  have hne : ¬ (c.buffer ++ bytes.take (48 - c.buffer.length)).length = 48 := by
    rw [htake]
    exact h.ne
  rw [EncodingContext.fill, dif_neg hne]
  refine ext_of rfl rfl ?_
  dsimp only
  rw [htake]

theorem EncodingContext.fill_eq_foldl (h : c.buffer.length + bytes.length ≤ 48) :
    c.fill bytes = bytes.foldl EncodingContext.push c := by
  induction bytes generalizing c with
  | nil => exact c.fill_nil
  | cons b bytes ih =>
      rw [length_cons] at h
      rw [foldl_cons, EncodingContext.push]
      cases bytes with
      | nil => rfl
      | cons b' bytes =>
          rw [length_cons] at h
          have hone : (c.buffer ++ [b]).length < 48 := by
            rw [length_append, length_singleton]
            omega
          rw [fill_of_lt hone, ← ih]
          · rcases Nat.lt_or_eq_of_le h with hlt | heq
            · have hall : (c.buffer ++ b :: b' :: bytes).length < 48 := by
                rw [length_append, length_cons]
                exact hlt
              rw [fill_of_lt hall, fill_of_lt]
              · exact ext_of rfl rfl (append_cons c.buffer b _)
              · rw [← append_cons]
                exact hall
            · rw [fill_of_full heq, fill_of_full]
              · exact ext_of (by rw [append_cons c.buffer b]) rfl rfl
              · rw [length_append, length_singleton, length_cons]
                omega
          · rw [length_append, length_singleton, length_cons]
            omega

theorem EncodingContext.fill_take (c : EncodingContext) (bytes : List UInt8) :
    c.fill (bytes.take (48 - c.buffer.length)) = c.fill bytes := by
  rw [EncodingContext.fill, EncodingContext.fill]
  simp only [take_take, min_self]

theorem EncodingContext.encodeBase64_eq_foldl (c : EncodingContext) (bytes : List UInt8) :
    c.encodeBase64 bytes = bytes.foldl EncodingContext.push c := by
  induction hlength : bytes.length using Nat.strongRecOn generalizing c bytes with
  | ind length ih =>
      subst hlength
      cases bytes with
      | nil => rw [encodeBase64, foldl_nil]
      | cons b rest =>
          have hroom := c.room
          have hless : ((b :: rest).drop (48 - c.buffer.length)).length < (b :: rest).length := by
            rw [length_drop, length_cons]
            omega
          have hfits : c.buffer.length + ((b :: rest).take (48 - c.buffer.length)).length ≤ 48 := by
            rw [length_take]
            omega
          rw [encodeBase64, ih _ hless _ _ rfl, ← fill_take,
            fill_eq_foldl hfits, ← foldl_append, take_append_drop]

theorem EncodingContext.push_text (c : EncodingContext) (b : UInt8) : (c.push b).text = c.text := by
  rw [EncodingContext.push, EncodingContext.fill]
  split <;> rfl

theorem EncodingContext.foldl_push_text (c : EncodingContext) (bytes : List UInt8) :
    (bytes.foldl EncodingContext.push c).text = c.text := by
  induction bytes generalizing c with
  | nil => rfl
  | cons b bytes ih => rw [foldl_cons, ih, c.push_text]

theorem canonical_append (text : Bool) (bytes rest : List UInt8) :
    canonical text (bytes ++ rest) = canonical text bytes ++ canonical text rest := by
  cases text
  · rfl
  · exact flatMap_append

theorem EncodingContext.updateText_eq (c : EncodingContext) (line bytes : List UInt8) :
    c.updateText line bytes = (line ++ canonical true bytes).foldl EncodingContext.push c := by
  induction bytes generalizing c line with
  | nil =>
      rw [updateText, c.encodeBase64_eq_foldl]
      exact congrArg (List.foldl _ c) (append_nil line).symm
  | cons b bytes ih =>
      have hcons : canonical true (b :: bytes)
          = (if b = cpNewline then bvCrlf else [b]) ++ canonical true bytes := rfl
      rw [updateText, hcons]
      by_cases hb : b = cpNewline
      · rw [if_pos hb, if_pos hb, ih, encodeBase64_eq_foldl,
          encodeBase64_eq_foldl, ← foldl_append, ← foldl_append]
        rfl
      · rw [if_neg hb, if_neg hb, ih, append_assoc]

theorem EncodingContext.update_eq (c : EncodingContext) (bytes : List UInt8) :
    c.update bytes = (canonical c.text bytes).foldl EncodingContext.push c := by
  rw [EncodingContext.update]
  cases htext : c.text with
  | false => exact c.encodeBase64_eq_foldl bytes
  | true => exact c.updateText_eq [] bytes

theorem EncodingContext.updates_eq (c : EncodingContext) (packets : List (List UInt8)) :
    packets.foldl EncodingContext.update c
      = (canonical c.text packets.flatten).foldl EncodingContext.push c := by
  induction packets generalizing c with
  | nil => cases htext : c.text <;> rfl
  | cons bytes packets ih =>
      rw [foldl_cons, ih, c.update_eq, foldl_push_text, flatten_cons,
        canonical_append, foldl_append]

/-- The lines of an encoding. -/
def encodeLines (bytes : List UInt8) : List (List Char) :=
  match bytes with
  | [] => []
  | byte :: rest => quanta ((byte :: rest).take 48) :: encodeLines ((byte :: rest).drop 48)
termination_by bytes.length
decreasing_by
  rw [length_drop, length_cons]
  omega

/-- Lines with what ends them. -/
def unlines (lines : List (List Char)) : List Char := lines.flatMap fun line => line ++ ['\n']

theorem writeBase64Line_eq (port : List Char) (h : bytes.length ≤ 48) :
    writeBase64Line port bytes = port ++ unlines (encodeLines bytes) := by
  cases bytes with
  | nil => rw [encodeLines, unlines, flatMap_nil, append_nil, writeBase64Line, if_neg (by decide)]
  | cons b rest =>
      rw [writeBase64Line, if_pos (by rw [length_cons]; omega), encodeLines, drop_of_length_le h,
        take_of_length_le h, encodeLines, unlines, flatMap_cons, flatMap_nil,
        append_nil, append_assoc]

theorem encodeLines_append (h : bytes.length = 48) (rest : List UInt8) :
    encodeLines (bytes ++ rest) = quanta bytes :: encodeLines rest := by
  cases bytes with
  | nil => cases h
  | cons b bytes =>
      rw [cons_append, encodeLines, ← cons_append, take_left' h, drop_left' h]

theorem EncodingContext.finalize_foldl (c : EncodingContext) (bytes : List UInt8) :
    (bytes.foldl EncodingContext.push c).finalize = c.port ++ unlines (encodeLines (c.buffer ++ bytes)) := by
  induction bytes generalizing c with
  | nil =>
      rw [append_nil]
      exact writeBase64Line_eq c.port c.room.le
  | cons b bytes ih =>
      have hroom := c.room
      rw [foldl_cons, ih, EncodingContext.push, append_cons]
      have hlength : (c.buffer ++ [b]).length = c.buffer.length + 1 := by
        rw [length_append, length_singleton]
      rcases Nat.lt_or_eq_of_le hroom with hlt | heq
      · rw [fill_of_lt (by omega)]
      · have hfull : c.buffer.length + [b].length = 48 := heq
        rw [fill_of_full hfull]
        rw [writeBase64Line, if_pos (by omega), nil_append, encodeLines_append (by omega), unlines,
          unlines, flatMap_cons, append_assoc, append_assoc, append_assoc]

theorem encode_eq (text : Bool) (packets : List (List UInt8)) :
    encode text packets = unlines (encodeLines (canonical text packets.flatten)) := by
  rw [encode, EncodingContext.updates_eq, finalize_foldl]
  rfl

/-! ## Decoding -/

theorem writeText_cons (port : List UInt8) (pending : Bool) (b : UInt8) (bytes : List UInt8) :
    writeText port pending (b :: bytes) = if pending = true ∧ b ≠ cpNewline then
        if b = cpReturn then writeText (port ++ [cpReturn]) true bytes
        else writeText (port ++ [cpReturn, b]) false bytes
      else if b = cpReturn then writeText port true bytes
      else writeText (port ++ [b]) false bytes := by
  cases pending with
  | false => simp only [writeText, Bool.false_eq_true, false_and, if_false]
  | true =>
      by_cases hb : b = cpNewline
      · subst hb
        simp only [writeText, if_true, ne_eq, not_true_eq_false, and_false, if_false]
        rfl
      · rw [writeText, if_neg hb, if_pos ⟨rfl, hb⟩, writeText, append_assoc]
        rfl

theorem writeText_append (port : List UInt8) (pending : Bool) (bytes rest : List UInt8) :
    writeText port pending (bytes ++ rest)
      = writeText (writeText port pending bytes).1 (writeText port pending bytes).2 rest := by
  induction bytes generalizing port pending with
  | nil => simp only [nil_append, writeText]
  | cons b bytes ih =>
      rw [cons_append, writeText_cons, writeText_cons]
      split
      · split
        · exact ih _ _
        · exact ih _ _
      · split
        · exact ih _ _
        · exact ih _ _

theorem writeText_canonical (port : List UInt8) (pending : Bool) (bytes : List UInt8) :
    ∃ port' pending', writeText port pending (canonical true bytes) = (port', pending')
      ∧ (if pending' then port' ++ [cpReturn] else port')
        = (if pending then port ++ [cpReturn] else port) ++ bytes := by
  induction bytes generalizing port pending with
  | nil => exact ⟨port, pending, by rw [canonical, if_pos rfl, flatMap_nil, writeText],
      (append_nil _).symm⟩
  | cons b bytes ih =>
      have hcons : canonical true (b :: bytes)
          = (if b = cpNewline then bvCrlf else [b]) ++ canonical true bytes := rfl
      -- the bytes written for one byte, and what is pending after it
      have hstep : ∃ port1 pending1,
          writeText port pending (if b = cpNewline then bvCrlf else [b]) = (port1, pending1)
            ∧ (if pending1 then port1 ++ [cpReturn] else port1)
              = (if pending then port ++ [cpReturn] else port) ++ [b] := by
        by_cases hnewline : b = cpNewline
        · subst hnewline
          refine ⟨(if pending then port ++ [cpReturn] else port) ++ [cpNewline], false, ?_, rfl⟩
          rw [bvCrlf]
          cases pending <;> simp [writeText_cons, writeText, cpNewline, cpReturn]
        · by_cases hreturn : b = cpReturn
          · subst hreturn
            refine ⟨if pending then port ++ [cpReturn] else port, true, ?_, rfl⟩
            cases pending <;> simp [writeText, cpNewline, cpReturn]
          · refine ⟨(if pending then port ++ [cpReturn] else port) ++ [b], false, ?_, rfl⟩
            cases pending <;> simp [writeText, hnewline, hreturn]
      obtain ⟨port1, pending1, hwrite1, heq1⟩ := hstep
      obtain ⟨port2, pending2, hwrite2, heq2⟩ := ih port1 pending1
      refine ⟨port2, pending2, ?_, ?_⟩
      · rw [hcons, writeText_append, hwrite1]
        exact hwrite2
      · rw [heq2, heq1, append_assoc]
        rfl

theorem DecodingContext.write_append (d : DecodingContext) (bytes rest : List UInt8) :
    d.write (bytes ++ rest) = (d.write bytes).write rest := by
  cases htext : d.text with
  | false => simp only [write, htext, Bool.false_eq_true, if_false, append_assoc]
  | true => simp only [write, htext, if_true, writeText_append]

theorem DecodingContext.write_fields (d : DecodingContext) (bytes : List UInt8) :
    (d.write bytes).inputBuffer = d.inputBuffer ∧ (d.write bytes).inputState = d.inputState
      ∧ (d.write bytes).text = d.text := by
  rw [write]
  split <;> exact ⟨rfl, rfl, rfl⟩

theorem DecodingContext.loop_append (hstate : d.inputState ≠ .finished) (rest : List Char) :
    d.loop (chars ++ rest) = (d.loop chars >>= fun d => d.update rest) := by
  induction chars generalizing d with
  | nil =>
      exact (if_neg hstate).symm
  | cons char chars ih =>
      have hafter : stateAfter char ≠ .finished := by
        rw [stateAfter]
        split <;> decide
      rw [cons_append, loop, loop]
      split
      · rw [bind_assoc]
        exact congrArg _ (funext fun d => ih hafter)
      · split
        · rfl
        · exact ih hafter

theorem DecodingContext.updates_eq (d : DecodingContext) (packets : List (List Char)) :
    packets.foldlM DecodingContext.update d = d.update packets.flatten := by
  induction packets generalizing d with
  | nil =>
      rw [DecodingContext.update]
      split <;> rfl
  | cons chars packets ih =>
      rw [foldlM_cons, flatten_cons]
      simp only [ih]
      by_cases hstate : d.inputState = .finished
      · rw [DecodingContext.update, DecodingContext.update, if_pos hstate, if_pos hstate]
        exact if_pos hstate
      · rw [DecodingContext.update, DecodingContext.update, if_neg hstate, if_neg hstate,
          loop_append hstate]

/-- A character that the decoder takes into its buffer. -/
def Accepted (char : Char) : Prop := (char = '=' ∨ charToDigit char < 0x40) ∧ char ≠ '\n'

theorem accepted_writeDigit (n : Nat) : Accepted (writeDigit n) := by
  refine ⟨.inr ?_, (writeDigit_ne n).2⟩
  rw [charToDigit_writeDigit]
  exact Nat.mod_lt n (by decide)

theorem accepted_padding : Accepted '=' := ⟨.inl rfl, by decide⟩

theorem DecodingContext.loop_accepted {char : Char} (h : Accepted char) (chars : List Char) :
    d.loop (char :: chars)
      = (d.insert char >>= fun d => loop { d with inputState := .inLine } chars) := by
  rw [loop, if_pos h.1, stateAfter, if_neg h.2]

theorem DecodingContext.loop_quantum {c1 c2 c3 c4 : Char} (hbuffer : d.inputBuffer = [])
    (h1 : Accepted c1) (h2 : Accepted c2) (h3 : Accepted c3) (h4 : Accepted c4)
    (hquantum : decodeBase64Quantum1 c1 c2 c3 c4 = .ok bytes) (chars : List Char) :
    d.loop ([c1, c2, c3, c4] ++ chars)
      = loop { d.write bytes with inputState := .inLine } chars := by
  obtain ⟨port, text, inputBuffer, inputState, pendingReturn⟩ := d
  cases hbuffer
  simp only [cons_append, nil_append, loop_accepted h1, loop_accepted h2, loop_accepted h3,
    loop_accepted h4, DecodingContext.insert, length_nil, length_cons, Nat.zero_add,
    Nat.reduceAdd, Nat.reduceLT, if_true, if_false, bind, Except.bind, decodeBase64Quantum,
    hquantum, write]
  split <;> rfl

theorem DecodingContext.loop_quanta (hbuffer : d.inputBuffer = []) (hbytes : bytes ≠ [])
    (chars : List Char) :
    d.loop (quanta bytes ++ chars)
      = loop { d.write bytes with inputState := .inLine } chars := by
  induction bytes using quanta.induct generalizing d with
  | case1 a b c rest ih =>
      rw [quanta, append_assoc, loop_quantum hbuffer (accepted_writeDigit _)
        (accepted_writeDigit _) (accepted_writeDigit _) (accepted_writeDigit _) (quantum_three a b c)]
      cases rest with
      | nil => rfl
      | cons b' rest =>
          refine (ih (d := { d.write [a, b, c] with inputState := .inLine })
            ((d.write_fields _).1.trans hbuffer) (cons_ne_nil b' rest)).trans ?_
          have hsplit : a :: b :: c :: b' :: rest = [a, b, c] ++ b' :: rest := rfl
          rw [hsplit, write_append]
          simp only [write]
          split <;> rfl
  | case2 a b =>
      exact loop_quantum hbuffer (accepted_writeDigit _) (accepted_writeDigit _)
        (accepted_writeDigit _) accepted_padding (quantum_two a b) chars
  | case3 a =>
      exact loop_quantum hbuffer (accepted_writeDigit _) (accepted_writeDigit _)
        accepted_padding accepted_padding (quantum_one a) chars
  | case4 => exact absurd rfl hbytes

theorem DecodingContext.loop_newline (hstate : d.inputState = .inLine) (chars : List Char) :
    d.loop ('\n' :: chars) = loop { d with inputState := .lineStart } chars := by
  rw [loop, if_neg (by decide), if_neg (by rw [hstate]; decide)]
  rfl

theorem DecodingContext.loop_lines (hbuffer : d.inputBuffer = []) (hstate : d.inputState = .lineStart) :
    d.loop (unlines (encodeLines bytes)) = .ok (d.write bytes) := by
  induction hlength : bytes.length using Nat.strongRecOn generalizing d bytes with
  | ind length ih =>
      subst hlength
      cases bytes with
      | nil =>
          rw [encodeLines, unlines, flatMap_nil, loop, write]
          split
          · simp only [writeText]
          · simp only [append_nil]
      | cons b rest =>
          have hless : ((b :: rest).drop 48).length < (b :: rest).length := by
            rw [length_drop, length_cons]
            omega
          have hne : (b :: rest).take 48 ≠ [] := cons_ne_nil _ _
          rw [encodeLines, unlines, flatMap_cons, append_assoc,
            loop_quanta hbuffer hne, singleton_append, loop_newline rfl]
          have hsplit := take_append_drop 48 (b :: rest)
          have hwhole : d.write (b :: rest) = (d.write ((b :: rest).take 48)).write ((b :: rest).drop 48) := by
            rw [← write_append, hsplit]
          obtain ⟨hbuffer', hstate', -⟩ := d.write_fields ((b :: rest).take 48)
          rw [hwhole]
          have hsame : ({ d.write ((b :: rest).take 48) with inputState := .lineStart } : DecodingContext)
              = d.write ((b :: rest).take 48) := by
            rw [← hstate, ← hstate']
          rw [hsame]
          exact ih _ hless (hbuffer'.trans hbuffer) (hstate'.trans hstate) rfl

/-! ## Padding -/

theorem quanta_padding (bytes : List UInt8) : ∃ digits padding, quanta bytes = digits ++ padding
    ∧ (∀ char ∈ digits, char ≠ '=') ∧ (padding = [] ∨ padding = ['='] ∨ padding = ['=', '='])
    ∧ (3 ∣ bytes.length → padding = []) := by
  induction bytes using quanta.induct with
  | case1 a b c rest ih =>
      obtain ⟨digits, padding, hquanta, hdigits, hpadding, hthree⟩ := ih
      refine ⟨_, padding, by rw [quanta, hquanta, ← append_assoc], fun char hchar => ?_, hpadding,
        fun hdvd => hthree ?_⟩
      · rcases mem_append.mp hchar with hmem | hmem
        · simp only [mem_cons, not_mem_nil, or_false] at hmem
          rcases hmem with rfl | rfl | rfl | rfl <;> exact (writeDigit_ne _).1
        · exact hdigits char hmem
      · simp only [length_cons] at hdvd
        omega
  | case2 a b =>
      refine ⟨[_, _, _], ['='], rfl, fun char hchar => ?_, .inr (.inl rfl), fun hdvd => ?_⟩
      · simp only [mem_cons, not_mem_nil, or_false] at hchar
        rcases hchar with rfl | rfl | rfl <;> exact (writeDigit_ne _).1
      · simp only [length_cons, length_nil] at hdvd
        omega
  | case3 a =>
      refine ⟨[_, _], ['=', '='], rfl, fun char hchar => ?_, .inr (.inr rfl), fun hdvd => ?_⟩
      · simp only [mem_cons, not_mem_nil, or_false] at hchar
        rcases hchar with rfl | rfl <;> exact (writeDigit_ne _).1
      · simp only [length_cons, length_nil] at hdvd
        omega
  | case4 => exact ⟨[], [], rfl, nofun, .inl rfl, fun _ => rfl⟩

theorem quanta_length (bytes : List UInt8) : (quanta bytes).length = 4 * ((bytes.length + 2) / 3) := by
  induction bytes using quanta.induct with
  | case1 a b c rest ih =>
      rw [quanta, length_append]
      simp only [length_cons, length_nil]
      omega
  | case2 a b | case3 a => simp only [quanta, length_cons, length_nil, Nat.reduceAdd, Nat.reduceDiv]
  | case4 => rfl

theorem newline_not_mem_quanta (bytes : List UInt8) : '\n' ∉ quanta bytes := by
  induction bytes using quanta.induct with
  | case1 a b c rest ih =>
      rw [quanta]
      simp only [mem_append, mem_cons, not_mem_nil, or_false, not_or]
      exact ⟨⟨(writeDigit_ne _).2.symm, (writeDigit_ne _).2.symm, (writeDigit_ne _).2.symm,
        (writeDigit_ne _).2.symm⟩, ih⟩
  | case2 a b =>
      simp only [quanta, mem_cons, not_mem_nil, or_false, not_or]
      exact ⟨(writeDigit_ne _).2.symm, (writeDigit_ne _).2.symm, (writeDigit_ne _).2.symm, by decide⟩
  | case3 a =>
      simp only [quanta, mem_cons, not_mem_nil, or_false, not_or]
      exact ⟨(writeDigit_ne _).2.symm, (writeDigit_ne _).2.symm, by decide, by decide⟩
  | case4 => exact not_mem_nil

theorem encodeLines_length (bytes : List UInt8) :
    ∀ line ∈ encodeLines bytes, line.length ≤ 64 ∧ '\n' ∉ line := by
  induction hlength : bytes.length using Nat.strongRecOn generalizing bytes with
  | ind length ih =>
      subst hlength
      cases bytes with
      | nil =>
          rw [encodeLines]
          nofun
      | cons b rest =>
          rw [encodeLines]
          intro line hline
          rcases mem_cons.mp hline with rfl | hmem
          · refine ⟨?_, newline_not_mem_quanta _⟩
            rw [quanta_length, length_take]
            omega
          · refine ih _ ?_ _ rfl line hmem
            rw [length_drop, length_cons]
            omega

theorem encodeLines_padding (bytes : List UInt8) : ∃ body padding,
    unlines (encodeLines bytes) = body ++ padding ∧ (∀ char ∈ body, char ≠ '=')
      ∧ (padding = [] ∨ padding = ['\n'] ∨ padding = ['=', '\n'] ∨ padding = ['=', '=', '\n']) := by
  induction hlength : bytes.length using Nat.strongRecOn generalizing bytes with
  | ind length ih =>
      cases bytes with
      | nil => exact ⟨[], [], by rw [encodeLines, unlines]; rfl, nofun, .inl rfl⟩
      | cons b rest =>
          obtain ⟨digits, padding, hquanta, hdigits, hpadding, hthree⟩ := quanta_padding ((b :: rest).take 48)
          have hcons : unlines (encodeLines (b :: rest))
              = digits ++ (padding ++ '\n' :: unlines (encodeLines ((b :: rest).drop 48))) := by
            rw [encodeLines, unlines, flatMap_cons, hquanta, append_assoc, append_assoc]
            rfl
          rw [hcons]
          by_cases hlast : (b :: rest).drop 48 = []
          · rw [hlast, encodeLines, unlines]
            refine ⟨digits, padding ++ ['\n'], rfl, hdigits, .inr ?_⟩
            rcases hpadding with rfl | rfl | rfl
            · exact .inl rfl
            · exact .inr (.inl rfl)
            · exact .inr (.inr rfl)
          · have hlong : 48 < (b :: rest).length := by
              rw [← Nat.not_le, ← drop_eq_nil_iff]
              exact hlast
            have hfull : ((b :: rest).take 48).length = 48 := length_take_of_le hlong.le
            obtain rfl : padding = [] := hthree (by rw [hfull]; decide)
            obtain ⟨body, padding', hrest, hbody, hpadding'⟩ :=
              ih ((b :: rest).drop 48).length (by rw [length_drop]; omega) _ rfl
            refine ⟨digits ++ '\n' :: body, padding', ?_, fun char hchar => ?_, hpadding'⟩
            · rw [hrest, append_assoc]
              rfl
            · rcases mem_append.mp hchar with hmem | hmem
              · exact hdigits char hmem
              · rcases mem_cons.mp hmem with rfl | hmem
                · decide
                · exact hbody char hmem

/-- However bytes are cut into packets, and however their encoding is cut again, the decoder gets the
bytes back and signals no error. The encoding is made of lines of at most 64 characters, and only the
last one has padding, at its end. -/
theorem base64_round_trip (text : Bool) (packets : List (List UInt8)) (pieces : List (List Char))
    (hpieces : pieces.flatten = encode text packets) :
    decode text pieces = .ok packets.flatten
      ∧ (∃ lines, encode text packets = unlines lines ∧ ∀ line ∈ lines, line.length ≤ 64 ∧ '\n' ∉ line)
      ∧ ∃ body padding, encode text packets = body ++ padding ∧ (∀ char ∈ body, char ≠ '=')
        ∧ (padding = [] ∨ padding = ['\n'] ∨ padding = ['=', '\n'] ∨ padding = ['=', '=', '\n']) := by
  have hencode := encode_eq text packets
  refine ⟨?_, ⟨_, hencode, encodeLines_length _⟩, hencode ▸ encodeLines_padding _⟩
  have hloop : (DecodingContext.initial text).update pieces.flatten
      = .ok ((DecodingContext.initial text).write (canonical text packets.flatten)) := by
    rw [hpieces, hencode]
    exact loop_lines rfl rfl
  rw [decode, DecodingContext.updates_eq, hloop]
  cases text with
  | false => rfl
  | true =>
      obtain ⟨port, pending, hwrite, hall⟩ := writeText_canonical [] false packets.flatten
      have hcontext : (DecodingContext.initial true).write (canonical true packets.flatten)
          = ⟨port, true, [], .lineStart, pending⟩ := by
        rw [write, if_pos (by rfl)]
        simp only [DecodingContext.initial, hwrite]
      rw [hcontext]
      exact congrArg Except.ok hall

theorem base64_round_trip_abcd :
    [['Q', 'W', 'J', 'j', 'C'], ['g', '=', '='], [], ['\n']].flatten = encode false [[65], [98, 99, 10]]
      ∧ decode false [['Q', 'W', 'J', 'j', 'C'], ['g', '=', '='], [], ['\n']] = .ok [65, 98, 99, 10] := by
  have henc : [['Q', 'W', 'J', 'j', 'C'], ['g', '=', '='], [], ['\n']].flatten
      = encode false [[65], [98, 99, 10]] := by
    decide +kernel
  exact ⟨henc, (base64_round_trip false [[65], [98, 99, 10]] _ henc).1⟩

end MitScheme.Base64
