import MitScheme.Runtime.Binhex40
import MitScheme.Runtime.RegsexpProof

/-!
# BinHex 4.0 texts are not decoded

What a text of a file in BinHex 4.0 looks like, and that every such text, however it is cut, ends in an
error: as soon as a quantum is complete, the decoder passes a number for the port.
-/

namespace MitScheme.Binhex40

open RegularSexpression List

/-! ## Files -/

/-- The bytes of a number below 2^32, the most significant one first. -/
def bytesOf (n : Nat) : List UInt8 :=
  [.ofNat (n / 0x1000000), .ofNat (n / 0x10000 % 0x100), .ofNat (n / 0x100 % 0x100), .ofNat (n % 0x100)]

structure File where
  name : List UInt8
  version : UInt8
  type : List UInt8
  creator : List UInt8
  flags : List UInt8
  data : List UInt8
  resource : List UInt8
  name_length : name.length < 0x100
  type_length : type.length = 4
  creator_length : creator.length = 4
  flags_length : flags.length = 2
  data_length : data.length < 0x100000000
  resource_length : resource.length < 0x100000000

/-- The header of 22 bytes and the name, the data fork and the resource fork, each with its CRC. -/
def File.bytes (file : File) (crc1 crc2 crc3 : List UInt8) : List UInt8 :=
  [.ofNat file.name.length] ++ file.name ++ [file.version] ++ file.type ++ file.creator ++ file.flags
    ++ bytesOf file.data.length ++ bytesOf file.resource.length ++ crc1 ++ file.data ++ crc2
    ++ file.resource ++ crc3

/-- What stands for one byte. -/
def literally (byte : UInt8) : List UInt8 := if byte = marker then [marker, 0] else [byte]

/-- Some bytes, in which runs may have been packed. -/
inductive Packed : List UInt8 → List UInt8 → Prop
  | nil : Packed [] []
  | one (byte : UInt8) {packed bytes : List UInt8} (h : Packed packed bytes) :
      Packed (literally byte ++ packed) (byte :: bytes)
  | run (byte count : UInt8) {packed bytes : List UInt8} (hcount : count ≠ 0) (h : Packed packed bytes) :
      Packed (literally byte ++ [marker, count] ++ packed) (List.replicate count.toNat byte ++ bytes)

def digitToChar (digit : Nat) : Char := digitToCharTable.getD digit ' '

/-- Six bits a character. -/
def sextets : List UInt8 → List Char
  | d1 :: d2 :: d3 :: rest =>
      [digitToChar (d1.toNat / 4), digitToChar (d1.toNat % 4 * 16 + d2.toNat / 16),
        digitToChar (d2.toNat % 16 * 4 + d3.toNat / 64), digitToChar (d3.toNat % 64)] ++ sextets rest
  | [d1, d2] =>
      [digitToChar (d1.toNat / 4), digitToChar (d1.toNat % 4 * 16 + d2.toNat / 16),
        digitToChar (d2.toNat % 16 * 4)]
  | [d1] => [digitToChar (d1.toNat / 4), digitToChar (d1.toNat % 4 * 16)]
  | [] => []

def lineBreak (char : Char) : Bool := char = '\r' ∨ char = '\n'

/-- A BinHex 4.0 text of a file: the comment line, a colon, the characters with line breaks anywhere, and
another colon. -/
structure IsText (file : File) (text : List Char) : Prop where
  parts : ∃ eol body post packed crc1 crc2 crc3,
    text = "(This file must be converted with BinHex 4.0)".toList ++ eol ++ ':' :: (body ++ ':' :: post)
      ∧ eol ≠ [] ∧ (∀ char ∈ eol, lineBreak char = true) ∧ (∀ char ∈ post, lineBreak char = true)
      ∧ (body.filter fun char => !lineBreak char) = sextets packed
      ∧ crc1.length = 2 ∧ crc2.length = 2 ∧ crc3.length = 2 ∧ Packed packed (file.bytes crc1 crc2 crc3)

/-! ## Quanta -/

theorem digitToChar_spec : ∀ digit < 64, charToDigit (digitToChar digit) < 0x40 ∧ digitToChar digit ≠ ':' := by
  decide +kernel

theorem mem_sextets {bytes : List UInt8} : ∀ char ∈ sextets bytes, charToDigit char < 0x40 ∧ char ≠ ':' := by
  induction bytes using sextets.induct with
  | case1 d1 d2 d3 rest ih =>
      have h1 := d1.toNat_lt
      have h2 := d2.toNat_lt
      have h3 := d3.toNat_lt
      intro char hchar
      rcases mem_append.mp hchar with hchar | hchar
      · simp only [mem_cons, not_mem_nil, or_false] at hchar
        rcases hchar with rfl | rfl | rfl | rfl
        · exact digitToChar_spec _ (by omega)
        · exact digitToChar_spec _ (by omega)
        · exact digitToChar_spec _ (by omega)
        · exact digitToChar_spec _ (by omega)
      · exact ih char hchar
  | case2 d1 d2 =>
      have h1 := d1.toNat_lt
      have h2 := d2.toNat_lt
      intro char hchar
      simp only [sextets, mem_cons, not_mem_nil, or_false] at hchar
      rcases hchar with rfl | rfl | rfl
      · exact digitToChar_spec _ (by omega)
      · exact digitToChar_spec _ (by omega)
      · exact digitToChar_spec _ (by omega)
  | case3 d1 =>
      have h1 := d1.toNat_lt
      intro char hchar
      simp only [sextets, mem_cons, not_mem_nil, or_false] at hchar
      rcases hchar with rfl | rfl
      · exact digitToChar_spec _ (by omega)
      · exact digitToChar_spec _ (by omega)
  | case4 => nofun

theorem sextets_ne_nil {bytes : List UInt8} (h : bytes ≠ []) : sextets bytes ≠ [] := by
  match bytes with
  | _ :: _ :: _ :: _ | [_, _] | [_] => exact cons_ne_nil _ _
  | [] => exact absurd rfl h

theorem decodeBinhex40Quantum_error (c : Context) (input : List Char) :
    ∃ e, c.decodeBinhex40Quantum input = .error e := by
  rw [Context.decodeBinhex40Quantum]
  cases decodeBinhex40Quantum1 input with
  | error e => exact ⟨e, rfl⟩
  | ok output => exact ⟨_, rfl⟩

/-- Before the next colon comes, some character will have been taken into the input buffer. -/
def Stuck (inputBuffer rest : List Char) : Prop :=
  ∀ before after, rest = before ++ ':' :: after → ':' ∉ before →
    inputBuffer ≠ [] ∨ ∃ char ∈ before, charToDigit char < 0x40

variable {c : Context} {nfc : List Char → Bool}

theorem decoding_stuck {chars rest : List Char} (h : Stuck c.inputBuffer (chars ++ rest)) :
    (∃ e, c.decodeBinhex40Decoding chars = .error e)
      ∨ ∃ c', c.decodeBinhex40Decoding chars = .ok c' ∧ c'.state = c.state ∧ Stuck c'.inputBuffer rest := by
  induction chars generalizing c with
  | nil => exact .inr ⟨c, rfl, rfl, h⟩
  | cons char chars ih =>
      rw [Context.decodeBinhex40Decoding]
      by_cases hcolon : char = ':'
      · subst hcolon
        rcases h [] (chars ++ rest) rfl not_mem_nil with hbuffer | ⟨char, hchar, -⟩
        · rw [if_pos (length_pos_of_ne_nil hbuffer)]
          obtain ⟨e, he⟩ := decodeBinhex40Quantum_error c (c.inputBuffer ++ [':'])
          rw [he]
          exact .inl ⟨e, rfl⟩
        · cases hchar
      · rw [if_neg hcolon]
        by_cases hdigit : charToDigit char < 0x40
        · rw [if_pos hdigit]
          by_cases hroom : c.inputBuffer.length < 3
          · rw [if_pos hroom]
            refine ih (c := { c with inputBuffer := c.inputBuffer ++ [char] }) fun before after _ _ => .inl ?_
            exact append_ne_nil_of_right_ne_nil _ (cons_ne_nil _ _)
          · rw [if_neg hroom]
            obtain ⟨e, he⟩ := decodeBinhex40Quantum_error c (c.inputBuffer ++ [char])
            rw [he]
            exact .inl ⟨e, rfl⟩
        · rw [if_neg hdigit]
          refine ih fun before after heq hbefore => ?_
          have hcons : char :: chars ++ rest = (char :: before) ++ ':' :: after := by
            rw [cons_append, cons_append, heq]
          have hnot : ':' ∉ char :: before := by
            rw [mem_cons, not_or]
            exact ⟨Ne.symm hcolon, hbefore⟩
          rcases h (char :: before) after hcons hnot with hbuffer | ⟨char', hmem, hdigit'⟩
          · exact .inl hbuffer
          · rcases mem_cons.mp hmem with rfl | hmem
            · exact absurd hdigit' hdigit
            · exact .inr ⟨char', hmem, hdigit'⟩

theorem updates_stuck {packets : List (List Char)}
    (hstate : c.state = .decoding) (h : Stuck c.inputBuffer packets.flatten) :
    ∃ e, (packets.foldlM (Context.update nfc) c >>= Context.finalize) = .error e := by
  induction packets generalizing c with
  | nil =>
      refine ⟨.decodeBinhex40 "Missing BinHex 4.0 terminating character.", ?_⟩
      change c.finalize = _
      rw [Context.finalize, hstate]
  | cons chars packets ih =>
      rw [foldlM_cons, Context.update, hstate]
      rcases decoding_stuck h with ⟨e, he⟩ | ⟨c', hc', hstate', hstuck⟩
      · rw [he]
        exact ⟨e, rfl⟩
      · rw [hc']
        exact ih (hstate'.trans hstate) hstuck

/-! ## The comment line -/

theorem header_colon {s : List Char} {start stop : Nat} {s0 s' : State Nat}
    (h : s' ∈ ways s start stop headerRegexp s0) :
    s'.index ≤ stop ∧ ∃ i, s'.index = i + 1 ∧ s[i]? = some ':' := by
  simp only [headerRegexp, ways, seqWays, flatMap_singleton'] at h
  obtain ⟨s1, -, h⟩ := mem_flatMap.mp h
  obtain ⟨s2, -, h⟩ := mem_flatMap.mp h
  obtain ⟨s3, -, h⟩ := mem_flatMap.mp h
  obtain ⟨s4, -, h⟩ := mem_flatMap.mp h
  obtain ⟨s5, -, h⟩ := mem_flatMap.mp h
  rw [literal] at h
  split at h
  case isTrue hcolon =>
    obtain ⟨hle, hslice⟩ := hcolon
    rw [length_singleton] at hle hslice
    rw [mem_singleton.mp h]
    refine ⟨hle, s5.index, rfl, ?_⟩
    have hget : (slice s s5.index (s5.index + 1))[0]? = s[s5.index + 0]? := getElem?_slice (by omega)
    rw [hslice] at hget
    exact hget.symm
  case isFalse => cases h

theorem match_header {s : List Char} (hnfc : nfc s = true) :
    regsexpMatchString nfc (s.length + 1) headerRegexp s none none
      = firstMatch s 0 s.length headerRegexp 0 := by
  have hnested : headerRegexp.Nested [] := by simp [headerRegexp, Regsexp.Nested, nestedAll]
  rw [regsexpMatchString, withRange_eq hnfc rfl rfl]
  exact topLevelMatch_eq le_rfl (by omega) hnested le_rfl (Nat.zero_le _)

theorem seeking_cases (nfc : List Char → Bool) (c : Context) (chars : List Char) :
    (∃ e, c.decodeBinhex40SeekingComment nfc chars = .error e)
      ∨ c.decodeBinhex40SeekingComment nfc chars = .ok { c with lineBuffer := c.lineBuffer ++ chars }
      ∨ ∃ before after, c.lineBuffer ++ chars = before ++ ':' :: after
        ∧ c.decodeBinhex40SeekingComment nfc chars
          = Context.decodeBinhex40Decoding { c with state := .decoding, lineBuffer := [] } after := by
  rw [Context.decodeBinhex40SeekingComment]
  by_cases hnfc : nfc (c.lineBuffer ++ chars) = true
  · rw [match_header hnfc, firstMatch]
    cases hways : (ways (c.lineBuffer ++ chars) 0 (c.lineBuffer ++ chars).length headerRegexp ⟨0, []⟩).head? with
    | none => exact .inr (.inl rfl)
    | some s' =>
        obtain ⟨hle, i, hi, hcolon⟩ := header_colon (List.mem_of_mem_head? hways)
        obtain ⟨hlt, hget⟩ := List.getElem?_eq_some_iff.mp hcolon
        refine .inr (.inr ⟨(c.lineBuffer ++ chars).take i, (c.lineBuffer ++ chars).drop s'.index, ?_, rfl⟩)
        rw [hi, ← hget, getElem_cons_drop, take_append_drop]
  · refine .inl ⟨.regsexp (.notNfc "regsexp-match-string"), ?_⟩
    have hrange : regsexpMatchString nfc ((c.lineBuffer ++ chars).length + 1) headerRegexp
        (c.lineBuffer ++ chars) none none = .error (.notNfc "regsexp-match-string") := by
      exact if_neg hnfc
    rw [hrange]

/-- After each colon, some character comes before the next one. -/
def Full (text : List Char) : Prop :=
  ∀ before after, text = before ++ ':' :: after → Stuck [] after

theorem updates_seeking {packets : List (List Char)}
    (hstate : c.state = .seekingComment) (hbuffer : c.inputBuffer = [])
    (h : Full (c.lineBuffer ++ packets.flatten)) :
    ∃ e, (packets.foldlM (Context.update nfc) c >>= Context.finalize) = .error e := by
  induction packets generalizing c with
  | nil =>
      refine ⟨.decodeBinhex40 "Missing BinHex 4.0 initial comment line.", ?_⟩
      change c.finalize = _
      rw [Context.finalize, hstate]
  | cons chars packets ih =>
      rw [flatten_cons, ← append_assoc] at h
      rw [foldlM_cons, Context.update, hstate]
      rcases seeking_cases nfc c chars with ⟨e, he⟩ | hok | ⟨before, after, heq, hok⟩
      · rw [he]
        exact ⟨e, rfl⟩
      · rw [hok]
        exact ih hstate hbuffer h
      · rw [hok]
        have hstuck : Stuck c.inputBuffer (after ++ packets.flatten) := by
          rw [hbuffer]
          refine h before _ ?_
          rw [heq, append_assoc, cons_append]
        have hdecoding := decoding_stuck (c := { c with state := .decoding, lineBuffer := [] }) hstuck
        rcases hdecoding with ⟨e, he⟩ | ⟨c', hc', hstate', hstuck'⟩
        · rw [he]
          exact ⟨e, rfl⟩
        · rw [hc']
          exact updates_stuck hstate' hstuck'

/-! ## Texts -/

theorem occurrence {α : Type} {a : α} {first rest before after : List α}
    (h : first ++ a :: rest = before ++ a :: after) (hfirst : a ∉ first) :
    (before = first ∧ after = rest) ∨ ∃ between, rest = between ++ a :: after := by
  induction first generalizing before with
  | nil =>
      cases before with
      | nil => exact .inl ⟨rfl, (List.cons.inj h).2.symm⟩
      | cons b before => exact .inr ⟨before, (List.cons.inj h).2⟩
  | cons b first ih =>
      rw [mem_cons, not_or] at hfirst
      cases before with
      | nil => exact absurd (List.cons.inj h).1.symm hfirst.1
      | cons b' before =>
          obtain ⟨hb, h⟩ := List.cons.inj h
          rcases ih h hfirst.2 with ⟨hbefore, hafter⟩ | hbetween
          · exact .inl ⟨by rw [hb, hbefore], hafter⟩
          · exact .inr hbetween

theorem full_of_parts {first body post : List Char} (hfirst : ':' ∉ first) (hpost : ':' ∉ post)
    (hbody : ':' ∉ body) (hdigit : ∃ char ∈ body, charToDigit char < 0x40) :
    Full (first ++ ':' :: (body ++ ':' :: post)) := by
  have hnone : ∀ {between after : List Char}, post ≠ between ++ ':' :: after := by
    intro between after heq
    exact hpost (heq ▸ mem_append_right _ mem_cons_self)
  intro before after heq before' after' heq' _
  rcases occurrence heq hfirst with ⟨-, rfl⟩ | ⟨between, heq⟩
  · rcases occurrence heq' hbody with ⟨rfl, -⟩ | ⟨between, heq'⟩
    · exact .inr hdigit
    · exact absurd heq' hnone
  · rcases occurrence heq hbody with ⟨-, rfl⟩ | ⟨between, heq⟩
    · exact absurd heq' hnone
    · exact absurd heq hnone

theorem not_lineBreak_colon {chars : List Char} (h : ∀ char ∈ chars, lineBreak char = true) : ':' ∉ chars := by
  intro hmem
  cases h ':' hmem

theorem not_lineBreak {char : Char} (h : charToDigit char < 0x40) : lineBreak char = false := by
  have hr : ¬charToDigit '\r' < 0x40 := by decide +kernel
  have hn : ¬charToDigit '\n' < 0x40 := by decide +kernel
  refine decide_eq_false fun hline => ?_
  rcases hline with rfl | rfl
  · exact hr h
  · exact hn h

theorem literally_ne_nil (byte : UInt8) : literally byte ≠ [] := by
  rw [literally]
  split <;> exact cons_ne_nil _ _

theorem Packed.ne_nil {packed bytes : List UInt8} (h : Packed packed bytes) (hbytes : bytes ≠ []) :
    packed ≠ [] := by
  cases h with
  | nil => contradiction
  | one byte _ => exact append_ne_nil_of_left_ne_nil (literally_ne_nil byte) _
  | run byte count _ _ =>
      rw [append_assoc]
      exact append_ne_nil_of_left_ne_nil (literally_ne_nil byte) _

theorem File.bytes_ne_nil (file : File) (crc1 crc2 crc3 : List UInt8) : file.bytes crc1 crc2 crc3 ≠ [] := by
  simp [File.bytes]

theorem IsText.full {file : File} {text : List Char} (h : IsText file text) : Full text := by
  obtain ⟨eol, body, post, packed, crc1, crc2, crc3, rfl, -, heol, hpost, hbody, -, -, -, hpacked⟩ := h.parts
  have hmem : ∀ char ∈ body, lineBreak char = false → char ∈ sextets packed := by
    intro char hchar hline
    rw [← hbody, mem_filter, hline]
    exact ⟨hchar, rfl⟩
  refine full_of_parts ?_ (not_lineBreak_colon hpost) ?_ ?_
  · rw [mem_append, not_or]
    exact ⟨by decide, not_lineBreak_colon heol⟩
  · intro hcolon
    exact (mem_sextets ':' (hmem ':' hcolon rfl)).2 rfl
  · obtain ⟨char, hchar⟩ := exists_mem_of_ne_nil _ (sextets_ne_nil (hpacked.ne_nil (file.bytes_ne_nil _ _ _)))
    refine ⟨char, ?_, (mem_sextets char hchar).1⟩
    rw [← hbody] at hchar
    exact (mem_filter.mp hchar).1

/-- No BinHex 4.0 text is decoded, however it is cut: an error is signalled. -/
theorem text_not_decoded (nfc : List Char → Bool) (file : File) (text : List Char) (packets : List (List Char))
    (htext : IsText file text) (hpackets : packets.flatten = text) :
    ∃ e, decode nfc packets = .error e := by
  refine updates_seeking rfl rfl ?_
  rw [hpackets]
  exact htext.full

theorem packed_self {bytes : List UInt8} (h : marker ∉ bytes) : Packed bytes bytes := by
  induction bytes with
  | nil => exact .nil
  | cons byte bytes ih =>
      rw [mem_cons, not_or] at h
      have hone := Packed.one byte (ih h.2)
      rwa [literally, if_neg (Ne.symm h.1)] at hone

/-- A file named `a` with one byte in its data fork. -/
def smallFile : File where
  name := [97]
  version := 0
  type := [84, 69, 88, 84]
  creator := [116, 116, 120, 116]
  flags := [0, 0]
  data := [1]
  resource := []
  name_length := by decide
  type_length := rfl
  creator_length := rfl
  flags_length := rfl
  data_length := by decide
  resource_length := by decide

def smallText : List Char :=
  "(This file must be converted with BinHex 4.0)".toList ++ ['\n']
    ++ ':' :: (sextets (smallFile.bytes [0, 0] [0, 0] [0, 0]) ++ ':' :: ['\n'])

theorem smallText_isText : IsText smallFile smallText := by
  have hline : ∀ char ∈ sextets (smallFile.bytes [0, 0] [0, 0] [0, 0]), (!lineBreak char) = true := by
    intro char hchar
    rw [not_lineBreak (mem_sextets char hchar).1]
    rfl
  have heol : ∀ char ∈ ['\n'], lineBreak char = true := by simp [lineBreak]
  exact ⟨['\n'], _, ['\n'], _, [0, 0], [0, 0], [0, 0], rfl, cons_ne_nil _ _, heol, heol,
    filter_eq_self.mpr hline, rfl, rfl, rfl, packed_self (by decide +kernel)⟩

theorem text_not_decoded_small : ∃ e, decode (fun _ => true) [smallText] = .error e :=
  text_not_decoded (fun _ => true) smallFile smallText [smallText] smallText_isText (append_nil _)

/-- The port is not what `write-bytevector` takes first. -/
theorem quantum_arguments :
    IsText smallFile smallText
      ∧ decode (fun _ => true) [smallText] = .error (.notA "binary-output-port?" "write-bytevector") :=
  ⟨smallText_isText, by decide +kernel⟩

end MitScheme.Binhex40
