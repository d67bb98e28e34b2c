import MitScheme.Lib.Bits
import MitScheme.Runtime.CodecLoops

/-!
# UTF-8

Which byte sequences are well formed is said by a table, and which bytes a scalar value has by
arithmetic. The decoder accepts the well-formed sequences and no others. The encoder takes some
scalar values for surrogates, since its test looks at the low sixteen bits only.
-/

namespace MitScheme.Codec

open Reading List

/-- A Unicode scalar value: a code point that is no surrogate. -/
def ScalarValue (cp : Nat) : Prop := cp < 0xD800 ∨ 0xDFFF < cp ∧ cp < 0x110000

/-- A scalar value beyond the first plane whose low sixteen bits look like a surrogate. -/
def LooksLikeSurrogate (cp : Nat) : Prop :=
  0x10000 ≤ cp ∧ 0xD800 ≤ cp % 0x10000 ∧ cp % 0x10000 ≤ 0xDFFF

/-- The bytes of a scalar value. -/
def utf8Code (cp : Nat) : List Nat :=
  if cp < 0x80 then [cp]
  else if cp < 0x800 then [0xC0 + cp / 64, 0x80 + cp % 64]
  else if cp < 0x10000 then [0xE0 + cp / 4096, 0x80 + cp / 64 % 64, 0x80 + cp % 64]
  else [0xF0 + cp / 262144, 0x80 + cp / 4096 % 64, 0x80 + cp / 64 % 64, 0x80 + cp % 64]

/-- The well-formed sequences for one code point: the least and the greatest value of each byte,
as in the comments of the source. -/
def utf8Table : List (List (Nat × Nat)) :=
  [[(0x00, 0x7F)],
    [(0xC2, 0xDF), (0x80, 0xBF)],
    [(0xE0, 0xE0), (0xA0, 0xBF), (0x80, 0xBF)],
    [(0xE1, 0xEC), (0x80, 0xBF), (0x80, 0xBF)],
    [(0xED, 0xED), (0x80, 0x9F), (0x80, 0xBF)],
    [(0xEE, 0xEF), (0x80, 0xBF), (0x80, 0xBF)],
    [(0xF0, 0xF0), (0x90, 0xBF), (0x80, 0xBF), (0x80, 0xBF)],
    [(0xF1, 0xF3), (0x80, 0xBF), (0x80, 0xBF), (0x80, 0xBF)],
    [(0xF4, 0xF4), (0x80, 0x8F), (0x80, 0xBF), (0x80, 0xBF)]]

/-- The bytes are within the bounds of a row. -/
def InRow : List Nat → List (Nat × Nat) → Prop
  | [], [] => True
  | b :: bytes, (low, high) :: row => low ≤ b ∧ b ≤ high ∧ InRow bytes row
  | _, _ => False

/-- A well-formed sequence for one code point. -/
def WellFormedChar (bytes : List Nat) : Prop := ∃ row ∈ utf8Table, InRow bytes row

/-- A well-formed sequence. -/
def WellFormedUtf8 (bytes : List Nat) : Prop :=
  ∃ sequences : List (List Nat), (∀ sequence ∈ sequences, WellFormedChar sequence)
    ∧ bytes = sequences.flatten

/-! ## The table -/

theorem utf8Code_ne_nil (cp : Nat) : utf8Code cp ≠ [] := by
  simp [utf8Code, ite_eq_iff]

theorem length_utf8Code_le (cp : Nat) : (utf8Code cp).length ≤ 4 := by
  unfold utf8Code
  split
  · simp
  split
  · simp
  split
  · simp
  · simp

variable {b0 cp b1 b2 char b n index : Nat}

theorem utf8Code_one : ScalarValue cp ∧ utf8Code cp = [b0] ↔ b0 < 0x80 ∧ cp = b0 := by
  unfold ScalarValue utf8Code
  simp only [ite_eq_iff, List.cons.injEq, reduceCtorEq, and_true, and_false, or_false]
  omega

theorem utf8Code_two :
    ScalarValue cp ∧ utf8Code cp = [b0, b1]
      ↔ (0xC2 ≤ b0 ∧ b0 ≤ 0xDF) ∧ (0x80 ≤ b1 ∧ b1 ≤ 0xBF)
        ∧ cp = b0 % 32 * 64 + b1 % 64 := by
  unfold ScalarValue utf8Code
  simp only [ite_eq_iff, List.cons.injEq, reduceCtorEq, and_true, and_false, or_false, false_or]
  omega

theorem utf8Code_three :
    ScalarValue cp ∧ utf8Code cp = [b0, b1, b2]
      ↔ (0xE0 ≤ b0 ∧ b0 ≤ 0xEF) ∧ (0x80 ≤ b1 ∧ b1 ≤ 0xBF) ∧ (0x80 ≤ b2 ∧ b2 ≤ 0xBF)
        ∧ (b0 = 0xE0 → 0xA0 ≤ b1) ∧ (b0 = 0xED → b1 ≤ 0x9F)
        ∧ cp = b0 % 16 * 4096 + b1 % 64 * 64 + b2 % 64 := by
  unfold ScalarValue utf8Code
  simp only [ite_eq_iff, List.cons.injEq, reduceCtorEq, and_true, and_false, or_false, false_or]
  omega

theorem utf8Code_four {b3 : Nat} :
    ScalarValue cp ∧ utf8Code cp = [b0, b1, b2, b3]
      ↔ (0xF0 ≤ b0 ∧ b0 ≤ 0xF4) ∧ (0x80 ≤ b1 ∧ b1 ≤ 0xBF) ∧ (0x80 ≤ b2 ∧ b2 ≤ 0xBF)
        ∧ (0x80 ≤ b3 ∧ b3 ≤ 0xBF) ∧ (b0 = 0xF0 → 0x90 ≤ b1) ∧ (b0 = 0xF4 → b1 ≤ 0x8F)
        ∧ cp = b0 % 8 * 262144 + b1 % 64 * 4096 + b2 % 64 * 64 + b3 % 64 := by
  unfold ScalarValue utf8Code
  simp only [ite_eq_iff, List.cons.injEq, reduceCtorEq, and_true, and_false, false_or]
  omega

theorem wellFormedChar_iff {bytes : List Nat} :
    WellFormedChar bytes ↔ ∃ cp, ScalarValue cp ∧ utf8Code cp = bytes := by
  unfold WellFormedChar utf8Table
  simp only [mem_cons, not_mem_nil, or_false, exists_eq_or_imp, exists_eq_left]
  -- one case for each length
  match bytes with
  | [] => simp [InRow, utf8Code_ne_nil]
  | [b0] =>
      simp only [InRow, utf8Code_one, exists_and_left, exists_eq, and_false, or_false, and_true]
      omega
  | [b0, b1] =>
      simp only [InRow, utf8Code_two, exists_and_left, exists_eq, and_false, or_false, false_or,
        and_true]
      omega
  | [b0, b1, b2] =>
      simp only [InRow, utf8Code_three, exists_and_left, exists_eq, and_false, or_false, false_or,
        and_true]
      omega
  | [b0, b1, b2, b3] =>
      simp only [InRow, utf8Code_four, exists_and_left, exists_eq, and_false, false_or, and_true]
      omega
  | b0 :: b1 :: b2 :: b3 :: b4 :: rest =>
      simp only [InRow, and_false, or_false, false_iff, not_exists, not_and]
      intro cp _ hcode
      have hlength := length_utf8Code_le cp
      rw [hcode] at hlength
      simp only [length_cons] at hlength
      omega

theorem utf16Surrogate_iff :
    utf16Surrogate cp = true ↔ 0xD800 ≤ cp % 0x10000 ∧ cp % 0x10000 ≤ 0xDFFF := by
  have hmask : 0xF800 &&& cp = cp / 2048 % 32 * 2048 := mask_shifted cp 11 5
  rw [utf16Surrogate, decide_eq_true_iff]
  omega

theorem unicodeScalarValue_iff :
    unicodeScalarValue cp = true ↔ ScalarValue cp ∧ ¬LooksLikeSurrogate cp := by
  unfold unicodeScalarValue ScalarValue LooksLikeSurrogate charCodeLimit
  rw [Bool.and_eq_true, decide_eq_true_iff, Bool.not_eq_true', ← Bool.not_eq_true,
    utf16Surrogate_iff]
  omega

theorem charToScalarValue_eq {caller : String}
    (h : unicodeScalarValue char = true) : charToScalarValue char caller = .ok char := by
  unfold charToScalarValue guarantee
  rw [if_pos h]
  rfl

theorem charToScalarValue_error {caller : String} (h : ¬unicodeScalarValue char = true) :
    charToScalarValue char caller = .error (.notA "a Unicode scalar value" char caller) := by
  unfold charToScalarValue guarantee
  rw [if_neg h]
  rfl

/-! ## Decoding -/

theorem utf8InitialByte1_iff (h : b < 0x100) : utf8InitialByte1 b = true ↔ b < 0x80 := by
  have hmask : 0x80 &&& b = b / 128 % 2 * 128 := mask_shifted b 7 1
  rw [utf8InitialByte1, decide_eq_true_iff]
  omega

theorem utf8InitialByte2_iff : utf8InitialByte2 b = true ↔ 0xC2 ≤ b ∧ b ≤ 0xDF := by
  simp [utf8InitialByte2]

theorem utf8InitialByte3_iff (h : b < 0x100) : utf8InitialByte3 b = true ↔ 0xE0 ≤ b ∧ b ≤ 0xEF := by
  have hmask : 0xF0 &&& b = b / 16 % 16 * 16 := mask_shifted b 4 4
  rw [utf8InitialByte3, decide_eq_true_iff]
  omega

theorem utf8InitialByte4_iff : utf8InitialByte4 b = true ↔ 0xF0 ≤ b ∧ b ≤ 0xF4 := by
  simp [utf8InitialByte4]

theorem u80To8F_iff (h : b < 0x100) : u80To8F b = true ↔ 0x80 ≤ b ∧ b ≤ 0x8F := by
  have hmask : 0xF0 &&& b = b / 16 % 16 * 16 := mask_shifted b 4 4
  rw [u80To8F, decide_eq_true_iff]
  omega

theorem u80To9F_iff (h : b < 0x100) : u80To9F b = true ↔ 0x80 ≤ b ∧ b ≤ 0x9F := by
  have hmask : 0xE0 &&& b = b / 32 % 8 * 32 := mask_shifted b 5 3
  rw [u80To9F, decide_eq_true_iff]
  omega

theorem u80ToBF_iff (h : b < 0x100) : u80ToBF b = true ↔ 0x80 ≤ b ∧ b ≤ 0xBF := by
  have hmask : 0xC0 &&& b = b / 64 % 4 * 64 := mask_shifted b 6 2
  rw [u80ToBF, decide_eq_true_iff]
  omega

theorem u90ToBF_iff : u90ToBF b = true ↔ 0x90 ≤ b ∧ b ≤ 0xBF := by simp [u90ToBF]

theorem uA0ToBF_iff : uA0ToBF b = true ↔ 0xA0 ≤ b ∧ b ≤ 0xBF := by simp [uA0ToBF]

theorem initialByteToUtf8CharLength_iff (h0 : b0 < 0x100) :
    initialByteToUtf8CharLength b0 = .ok n ↔
      (n = 1 ∧ b0 < 0x80) ∨ (n = 2 ∧ 0xC2 ≤ b0 ∧ b0 ≤ 0xDF) ∨ (n = 3 ∧ 0xE0 ≤ b0 ∧ b0 ≤ 0xEF)
        ∨ (n = 4 ∧ 0xF0 ≤ b0 ∧ b0 ≤ 0xF4) := by
  have hguarantee : guarantee (fun b0 => decide (b0 < 0x100)) "u8" b0
      "initial-byte->utf8-char-length" = .ok () := by
    unfold guarantee
    rw [if_pos (by simpa using h0)]
  unfold initialByteToUtf8CharLength
  rw [hguarantee]
  simp only [utf8InitialByte1_iff h0, utf8InitialByte2_iff, utf8InitialByte3_iff h0, utf8InitialByte4_iff]
  change (if _ then Except.ok 1 else if _ then Except.ok 2 else if _ then Except.ok 3 else if _ then Except.ok 4
    else Except.error _) = _ ↔ _
  simp only [ite_eq_iff, Except.ok.injEq, reduceCtorEq, and_false, or_false]
  omega

theorem utf8Code_initial {rest : List Nat} (h : ScalarValue cp) (hcode : utf8Code cp = b0 :: rest) :
    initialByteToUtf8CharLength b0 = .ok (utf8Code cp).length := by
  have hfit : (utf8Code cp).length = rest.length + 1 := by rw [hcode, length_cons]
  have hlength := length_utf8Code_le cp
  match rest with
  | [] =>
      obtain ⟨h0, -⟩ := utf8Code_one.mp ⟨h, hcode⟩
      rw [hfit]
      exact (initialByteToUtf8CharLength_iff (by omega)).mpr (.inl ⟨rfl, h0⟩)
  | [b1] =>
      obtain ⟨h0, -⟩ := utf8Code_two.mp ⟨h, hcode⟩
      rw [hfit]
      exact (initialByteToUtf8CharLength_iff (by omega)).mpr (.inr (.inl ⟨rfl, h0⟩))
  | [b1, b2] =>
      obtain ⟨h0, -⟩ := utf8Code_three.mp ⟨h, hcode⟩
      rw [hfit]
      exact (initialByteToUtf8CharLength_iff (by omega)).mpr (.inr (.inr (.inl ⟨rfl, h0⟩)))
  | [b1, b2, b3] =>
      obtain ⟨h0, -⟩ := utf8Code_four.mp ⟨h, hcode⟩
      rw [hfit]
      exact (initialByteToUtf8CharLength_iff (by omega)).mpr (.inr (.inr (.inr ⟨rfl, h0⟩)))
  | b1 :: b2 :: b3 :: b4 :: rest =>
      rw [hfit] at hlength
      simp only [length_cons] at hlength
      omega

theorem extractBits_eq (word k j : Nat) :
    extractBits word (2 ^ k - 1) (Int.ofNat j) = word % 2 ^ k * 2 ^ j := by
  change (word &&& (2 ^ k - 1)) <<< j = _
  rw [and_mask, Nat.shiftLeft_eq]

theorem extract_two (b0 b1 : Nat) :
    extractBits b0 0x1F 6 ||| extractBits b1 0x3F 0 = b0 % 32 * 64 + b1 % 64 := by
  have h0 : extractBits b0 0x1F 6 = b0 % 32 * 64 := extractBits_eq b0 5 6
  have h1 : extractBits b1 0x3F 0 = b1 % 64 * 1 := extractBits_eq b1 6 0
  rw [or_eq_add 6 (by omega) (by omega)]
  omega

theorem extract_three (b0 b1 b2 : Nat) :
    (extractBits b0 0x0F 12 ||| extractBits b1 0x3F 6) ||| extractBits b2 0x3F 0
      = b0 % 16 * 4096 + b1 % 64 * 64 + b2 % 64 := by
  have h0 : extractBits b0 0x0F 12 = b0 % 16 * 4096 := extractBits_eq b0 4 12
  have h1 : extractBits b1 0x3F 6 = b1 % 64 * 64 := extractBits_eq b1 6 6
  have h2 : extractBits b2 0x3F 0 = b2 % 64 * 1 := extractBits_eq b2 6 0
  have h01 : b0 % 16 * 4096 ||| b1 % 64 * 64 = b0 % 16 * 4096 + b1 % 64 * 64 :=
    or_eq_add 12 (by omega) (by omega)
  rw [h0, h1, or_eq_add 6 (by omega) (by omega)]
  omega

theorem extract_four (b0 b1 b2 b3 : Nat) :
    (extractBits b0 0x07 18 ||| extractBits b1 0x3F 12)
        ||| (extractBits b2 0x3F 6 ||| extractBits b3 0x3F 0)
      = b0 % 8 * 262144 + b1 % 64 * 4096 + b2 % 64 * 64 + b3 % 64 := by
  have h0 : extractBits b0 0x07 18 = b0 % 8 * 262144 := extractBits_eq b0 3 18
  have h1 : extractBits b1 0x3F 12 = b1 % 64 * 4096 := extractBits_eq b1 6 12
  have h2 : extractBits b2 0x3F 6 = b2 % 64 * 64 := extractBits_eq b2 6 6
  have h3 : extractBits b3 0x3F 0 = b3 % 64 * 1 := extractBits_eq b3 6 0
  have h01 : b0 % 8 * 262144 ||| b1 % 64 * 4096 = b0 % 8 * 262144 + b1 % 64 * 4096 :=
    or_eq_add 18 (by omega) (by omega)
  have h23 : b2 % 64 * 64 ||| b3 % 64 * 1 = b2 % 64 * 64 + b3 % 64 * 1 :=
    or_eq_add 6 (by omega) (by omega)
  rw [h0, h1, h2, h3, or_eq_add 12 (by omega) (by omega)]
  omega

theorem validUtf8Sequence2_iff (h1 : b1 < 0x100) :
    validUtf8Sequence2 b0 b1 = true ↔ (0xC2 ≤ b0 ∧ b0 ≤ 0xDF) ∧ 0x80 ≤ b1 ∧ b1 ≤ 0xBF := by
  rw [validUtf8Sequence2, Bool.and_eq_true, utf8InitialByte2_iff, u80ToBF_iff h1]

theorem validUtf8Sequence3_iff (h0 : b0 < 0x100) (h1 : b1 < 0x100) (h2 : b2 < 0x100) :
    validUtf8Sequence3 b0 b1 b2 = true
      ↔ (0xE0 ≤ b0 ∧ b0 ≤ 0xEF) ∧ (0x80 ≤ b1 ∧ b1 ≤ 0xBF) ∧ (0x80 ≤ b2 ∧ b2 ≤ 0xBF)
        ∧ (b0 = 0xE0 → 0xA0 ≤ b1) ∧ (b0 = 0xED → b1 ≤ 0x9F) := by
  rw [validUtf8Sequence3, Bool.and_eq_true, Bool.and_eq_true, utf8InitialByte3_iff h0,
    u80ToBF_iff h2]
  split
  · rw [uA0ToBF_iff]
    omega
  split
  · rw [u80ToBF_iff h1]
    omega
  split
  · rw [u80To9F_iff h1]
    omega
  · rw [u80ToBF_iff h1]
    omega

theorem validUtf8Sequence4_iff {b3 : Nat} (h1 : b1 < 0x100) (h2 : b2 < 0x100) (h3 : b3 < 0x100) :
    validUtf8Sequence4 b0 b1 b2 b3 = true
      ↔ (0xF0 ≤ b0 ∧ b0 ≤ 0xF4) ∧ (0x80 ≤ b1 ∧ b1 ≤ 0xBF) ∧ (0x80 ≤ b2 ∧ b2 ≤ 0xBF)
        ∧ (0x80 ≤ b3 ∧ b3 ≤ 0xBF) ∧ (b0 = 0xF0 → 0x90 ≤ b1) ∧ (b0 = 0xF4 → b1 ≤ 0x8F) := by
  rw [validUtf8Sequence4, Bool.and_eq_true, Bool.and_eq_true, Bool.and_eq_true,
    utf8InitialByte4_iff, u80ToBF_iff h2, u80ToBF_iff h3]
  split
  · rw [u90ToBF_iff]
    omega
  split
  · rw [u80ToBF_iff h1]
    omega
  · rw [u80To8F_iff h1]
    omega

theorem exists_value {bytes : Bytevector} (h : index < bytes.length) :
    ∃ b, (values bytes)[index]? = some b ∧ b < 0x100 := by
  have hindex : index < (values bytes).length := by rwa [length_values]
  exact ⟨_, List.getElem?_eq_getElem hindex, values_lt (getElem_mem hindex)⟩

theorem decodeUtf8Char_result {bytes : Bytevector}
    (hb0 : (values bytes)[index]? = some b0) (h0 : b0 < 0x100)
    (hn : initialByteToUtf8CharLength b0 = .ok n) (hroom : index + n ≤ bytes.length) :
    (decodeUtf8Char bytes index).result = .ok cp
      ↔ ScalarValue cp ∧ utf8Code cp = slice (values bytes) index (index + n) := by
  rw [decodeUtf8Char, result_bind_of_ok (bytevectorU8Ref_result.mpr hb0)]
  simp only [utf8InitialByte1_iff h0, utf8InitialByte2_iff, utf8InitialByte3_iff h0,
    utf8InitialByte4_iff]
  rcases (initialByteToUtf8CharLength_iff h0).mp hn with ⟨rfl, hrange⟩ | ⟨rfl, hrange⟩
    | ⟨rfl, hrange⟩ | ⟨rfl, hrange⟩
  · rw [if_pos hrange, slice_cons hb0 (by omega), slice_self, utf8Code_one, result_pure,
      Except.ok.injEq]
    omega
  · obtain ⟨b1, hb1, h1⟩ := exists_value (show index + 1 < bytes.length by omega)
    rw [if_neg (by omega), if_pos hrange, result_bind_of_ok (bytevectorU8Ref_result.mpr hb1),
      slice_cons hb0 (by omega), slice_cons hb1 (by omega), slice_self, utf8Code_two, result_guard,
      validUtf8Sequence2_iff h1, extract_two]
    omega
  · obtain ⟨b1, hb1, h1⟩ := exists_value (show index + 1 < bytes.length by omega)
    obtain ⟨b2, hb2, h2⟩ := exists_value (show index + 2 < bytes.length by omega)
    rw [if_neg (by omega), if_neg (by omega), if_pos hrange,
      result_bind_of_ok (bytevectorU8Ref_result.mpr hb1),
      result_bind_of_ok (bytevectorU8Ref_result.mpr hb2), slice_cons hb0 (by omega),
      slice_cons hb1 (by omega), slice_cons hb2 (by omega), slice_self, utf8Code_three, result_guard,
      validUtf8Sequence3_iff h0 h1 h2, extract_three]
    omega
  · obtain ⟨b1, hb1, h1⟩ := exists_value (show index + 1 < bytes.length by omega)
    obtain ⟨b2, hb2, h2⟩ := exists_value (show index + 2 < bytes.length by omega)
    obtain ⟨b3, hb3, h3⟩ := exists_value (show index + 3 < bytes.length by omega)
    rw [if_neg (by omega), if_neg (by omega), if_neg (by omega), if_pos hrange,
      result_bind_of_ok (bytevectorU8Ref_result.mpr hb1),
      result_bind_of_ok (bytevectorU8Ref_result.mpr hb2),
      result_bind_of_ok (bytevectorU8Ref_result.mpr hb3), slice_cons hb0 (by omega),
      slice_cons hb1 (by omega), slice_cons hb2 (by omega), slice_cons hb3 (by omega), slice_self,
      utf8Code_four, result_guard,
      validUtf8Sequence4_iff h1 h2 h3, extract_four]
    omega

theorem decodeUtf8Char_within {bytes : Bytevector}
    (hb0 : (values bytes)[index]? = some b0) (h0 : b0 < 0x100)
    (hn : initialByteToUtf8CharLength b0 = .ok n) :
    Within (fun i => index ≤ i ∧ i < index + n) (decodeUtf8Char bytes index) := by
  have hlength := (initialByteToUtf8CharLength_iff h0).mp hn
  refine (bytevectorU8Ref_within (by omega)).bind fun b hb => ?_
  rw [bytevectorU8Ref_result, hb0] at hb
  cases hb
  simp only [utf8InitialByte1_iff h0, utf8InitialByte2_iff, utf8InitialByte3_iff h0,
    utf8InitialByte4_iff]
  split
  · exact within_pure _
  split
  · refine (bytevectorU8Ref_within (by omega)).bind fun b1 _ => ?_
    exact within_guard _ _
  split
  · refine (bytevectorU8Ref_within (by omega)).bind fun b1 _ => ?_
    refine (bytevectorU8Ref_within (by omega)).bind fun b2 _ => ?_
    exact within_guard _ _
  split
  · refine (bytevectorU8Ref_within (by omega)).bind fun b1 _ => ?_
    refine (bytevectorU8Ref_within (by omega)).bind fun b2 _ => ?_
    refine (bytevectorU8Ref_within (by omega)).bind fun b3 _ => ?_
    exact within_guard _ _
  · exact within_fail _

/-- A turn of `utf8->string`. -/
def utf8Next : Bytevector → Nat → Nat → Reading Error (Nat × Nat) :=
  decodeNext bytevectorU8Ref initialByteToUtf8CharLength decodeUtf8Char "UTF-8"

theorem utf8_decodes : Decodes ScalarValue utf8Code utf8Next := by
  refine Decodes.of_units (fun char _ => utf8Code_ne_nil char) ?_ ?_
  · intro bytes index cp hcp hroom hcode
    have hpos := length_pos_iff.mpr (utf8Code_ne_nil cp)
    obtain ⟨b0, hb0, -⟩ := exists_value (show index < bytes.length by omega)
    rw [slice_cons hb0 (by omega)] at hcode
    exact ⟨b0, bytevectorU8Ref_result.mpr hb0, utf8Code_initial hcp hcode.symm⟩
  · intro bytes index b0 n cp hb0 hn hroom
    rw [bytevectorU8Ref_result] at hb0
    exact decodeUtf8Char_result hb0 (values_lt (mem_of_getElem? hb0)) hn hroom

theorem utf8Next_within {bytes : Bytevector} {stop : Nat} (hindex : index < stop) :
    Within (fun i => index ≤ i ∧ i < stop) (utf8Next bytes stop index) := by
  refine (bytevectorU8Ref_within (by omega)).bind fun b0 hb0 => ?_
  rw [bytevectorU8Ref_result] at hb0
  have h0 := values_lt (mem_of_getElem? hb0)
  refine Within.bind (fun _ hi => (nomatch hi)) fun n hn => ?_
  dsimp only
  split
  · refine Within.bind ?_ fun _ _ => within_pure _
    refine (decodeUtf8Char_within hb0 h0 hn).mono fun i hi => ?_
    omega
  · refine Within.bind (fun i hi => ?_) fun _ _ => within_fail _
    have hrange := mem_range'_1.mp hi
    omega

/-! ## Encoding -/

theorem initialByte_eq {sv : Nat} (leader j k : Nat) (hleader : 2 ^ k ∣ leader)
    (h : sv / 2 ^ (j + 1) < 2 ^ k) :
    initialByte sv leader (Int.negSucc j) = leader + sv / 2 ^ (j + 1) := by
  change leader ||| sv >>> (j + 1) = _
  rw [Nat.shiftRight_eq_div_pow, or_eq_add k hleader h]

theorem trailingByte_zero (sv : Nat) : trailingByte sv 0 = 0x80 + sv % 64 := by
  have hmask : insertBits sv 0x3F 0 = sv % 64 := and_mask sv 6
  rw [trailingByte, hmask, or_eq_add 6 (by omega) (by omega)]

theorem trailingByte_eq (sv j : Nat) :
    trailingByte sv (Int.negSucc j) = 0x80 + sv / 2 ^ (j + 1) % 64 := by
  have hmask : insertBits sv 0x3F (Int.negSucc j) = sv / 2 ^ (j + 1) % 64 := by
    change sv >>> (j + 1) &&& 0x3F = _
    rw [Nat.shiftRight_eq_div_pow]
    exact and_mask _ 6
  rw [trailingByte, hmask, or_eq_add 6 (by omega) (by omega)]

theorem charUtf8ByteLength_eq (h : unicodeScalarValue char = true) :
    charUtf8ByteLength char = .ok (utf8Code char).length := by
  unfold charUtf8ByteLength
  rw [charToScalarValue_eq h]
  unfold utf8Code
  change Except.ok _ = Except.ok _
  split
  · rfl
  split
  · rfl
  split
  · rfl
  · rfl

theorem utf8_encodes :
    Encodes (fun char => unicodeScalarValue char = true) utf8Code true charUtf8ByteLength
      encodeUtf8Char where
  byteLength _ := charUtf8ByteLength_eq
  rejects char h := by
    unfold charUtf8ByteLength
    rw [charToScalarValue_error h]
    exact ⟨_, rfl⟩
  encode char bytes index h hroom := by
    have hlimit : char < 0x110000 := by
      obtain ⟨hscalar, -⟩ := unicodeScalarValue_iff.mp h
      unfold ScalarValue at hscalar
      omega
    have hstart : values bytes = splice (values bytes) index [] := (splice_nil _ _).symm
    unfold encodeUtf8Char
    rw [charToScalarValue_eq h]
    unfold utf8Code at hroom ⊢
    change ∃ bytes', (if char < 0x80 then _ else _ : Except Error (Bytevector × Option Nat)) = _ ∧ _
    split
    · rename_i h1
      rw [if_pos h1] at hroom
      exact set_then hstart rfl hroom (by omega) fun bytes₁ h₁ => ⟨bytes₁, rfl, h₁⟩
    rename_i h1
    rw [if_neg h1] at hroom
    split
    · rename_i h2
      rw [if_pos h2] at hroom
      change index + 2 ≤ bytes.length at hroom
      have hb0 : initialByte char 0xC0 (-6) = 0xC0 + char / 64 :=
        initialByte_eq 0xC0 5 5 (by decide) (by omega)
      rw [hb0, trailingByte_zero]
      refine set_then hstart rfl (by omega) (by omega) fun bytes₁ h₁ => ?_
      exact set_then h₁ rfl (by omega) (by omega) fun bytes₂ h₂ => ⟨bytes₂, rfl, h₂⟩
    rename_i h2
    rw [if_neg h2] at hroom
    have hb1 : trailingByte char (-6) = 0x80 + char / 64 % 64 := trailingByte_eq char 5
    split
    · rename_i h3
      rw [if_pos h3] at hroom
      change index + 3 ≤ bytes.length at hroom
      have hb0 : initialByte char 0xE0 (-12) = 0xE0 + char / 4096 :=
        initialByte_eq 0xE0 11 4 (by decide) (by omega)
      rw [hb0, hb1, trailingByte_zero]
      refine set_then hstart rfl (by omega) (by omega) fun bytes₁ h₁ => ?_
      refine set_then h₁ rfl (by omega) (by omega) fun bytes₂ h₂ => ?_
      exact set_then h₂ rfl (by omega) (by omega) fun bytes₃ h₃ => ⟨bytes₃, rfl, h₃⟩
    · rename_i h3
      rw [if_neg h3] at hroom
      change index + 4 ≤ bytes.length at hroom
      have hb0 : initialByte char 0xF0 (-18) = 0xF0 + char / 262144 :=
        initialByte_eq 0xF0 17 3 (by decide) (by omega)
      have hb2 : trailingByte char (-12) = 0x80 + char / 4096 % 64 := trailingByte_eq char 11
      rw [hb0, hb1, hb2, trailingByte_zero]
      refine set_then hstart rfl (by omega) (by omega) fun bytes₁ h₁ => ?_
      refine set_then h₁ rfl (by omega) (by omega) fun bytes₂ h₂ => ?_
      refine set_then h₂ rfl (by omega) (by omega) fun bytes₃ h₃ => ?_
      exact set_then h₃ rfl (by omega) (by omega) fun bytes₄ h₄ => ⟨bytes₄, rfl, h₄⟩

/-! ## Exactness -/

/-- The decoder of the codec for UTF-8. -/
def utf8CodecDecoder : Bytevector → Nat → Nat → Reading Error (Option Nat × Nat) :=
  unicodeCodecDecoder nextCharLengthUtf8 decodeUtf8Char

theorem wellFormedUtf8_iff {bytes : List Nat} :
    WellFormedUtf8 bytes
      ↔ ∃ chars : List Nat, (∀ char ∈ chars, ScalarValue char)
        ∧ bytes = chars.flatMap utf8Code := by
  refine ⟨fun h => ?_, fun ⟨chars, hchars, heq⟩ => ?_⟩
  · obtain ⟨sequences, hsequences, rfl⟩ := h
    induction sequences with
    | nil => exact ⟨[], fun _ hmem => (nomatch hmem), rfl⟩
    | cons sequence sequences ih =>
        obtain ⟨hsequence, hrest⟩ := forall_mem_cons.mp hsequences
        obtain ⟨char, hchar, hcode⟩ := wellFormedChar_iff.mp hsequence
        obtain ⟨chars, hchars, heq⟩ := ih hrest
        refine ⟨char :: chars, forall_mem_cons.mpr ⟨hchar, hchars⟩, ?_⟩
        rw [flatten_cons, heq, flatMap_cons, hcode]
  · refine ⟨chars.map utf8Code, fun sequence hmem => ?_, ?_⟩
    · obtain ⟨char, hchar, hcode⟩ := List.mem_map.mp hmem
      exact wellFormedChar_iff.mpr ⟨char, hchars char hchar, hcode⟩
    · rw [heq, flatMap_def]

/-- What the decoder does with a part of a bytevector. -/
structure Utf8DecoderExact (bytes : Bytevector) (start stop : Nat) : Prop where
  accepts : (∃ chars, (utf8ToString bytes (some start) (some stop)).result = .ok chars)
    ↔ WellFormedUtf8 (slice (values bytes) start stop)
  decodes : ∀ chars, (utf8ToString bytes (some start) (some stop)).result = .ok chars
    ↔ (∀ char ∈ chars, ScalarValue char)
      ∧ slice (values bytes) start stop = chars.flatMap utf8Code
  within : Within (fun i => start ≤ i ∧ i < stop) (utf8ToString bytes (some start) (some stop))
  codecAccepts : ∀ index, start ≤ index → index ≤ stop → ∀ index',
    (∃ char, (utf8CodecDecoder bytes index stop).result = .ok (some char, index'))
      ↔ index' ≤ stop ∧ index < index' ∧ WellFormedChar (slice (values bytes) index index')
  codecDecodes : ∀ index, start ≤ index → index ≤ stop → ∀ char index',
    (utf8CodecDecoder bytes index stop).result = .ok (some char, index') →
      ScalarValue char ∧ slice (values bytes) index index' = utf8Code char
  codecWithin : ∀ index, start ≤ index → index ≤ stop →
    Within (fun i => index ≤ i ∧ i < stop) (utf8CodecDecoder bytes index stop)

/-- The string is what its encoding is decoded to. -/
def Utf8RoundTrips (string : List Nat) : Prop :=
  ∃ bytes, stringToUtf8 string none none = .ok bytes
    ∧ (utf8ToString bytes none none).result = .ok string

/-- What the part of the bytevector is decoded to is encoded as the same bytes. -/
def Utf8Reencodes (bytes : Bytevector) (start stop : Nat) : Prop :=
  ∀ chars, (utf8ToString bytes (some start) (some stop)).result = .ok chars →
    ∃ bytes', stringToUtf8 chars none none = .ok bytes'
      ∧ values bytes' = slice (values bytes) start stop

section

variable {bytes : Bytevector} {start stop : Nat}

theorem utf8ToString_result (hstart : start ≤ stop) (hstop : stop ≤ bytes.length)
    {chars : List Nat} :
    (utf8ToString bytes (some start) (some stop)).result = .ok chars
      ↔ Encoded ScalarValue utf8Code bytes start stop chars := by
  unfold utf8ToString
  rw [bytesDecoder_some _ hstart hstop]
  exact utf8_decodes.chars hstop hstart (Nat.le_refl _)

theorem utf8CodecDecoder_result (hstop : stop ≤ bytes.length) {index : Nat} (hindex : index ≤ stop)
    {char index' : Nat} :
    (utf8CodecDecoder bytes index stop).result = .ok (some char, index')
      ↔ ScalarValue char ∧ index' = index + (utf8Code char).length ∧ index' ≤ stop
        ∧ slice (values bytes) index index' = utf8Code char := by
  have hlength : stop ≤ (values bytes).length := by rwa [length_values]
  have hturn : (utf8CodecDecoder bytes index stop).result = .ok (some char, index')
      ↔ index + 1 ≤ stop ∧ (utf8Next bytes stop index).result = .ok (char, index') :=
    unicodeCodecDecoder_result
  refine hturn.trans ⟨fun ⟨hstep, hnext⟩ => ?_, fun ⟨hchar, hindex', hle, hcode⟩ => ?_⟩
  · obtain ⟨hchar, hindex', hprefix⟩ := (utf8_decodes.decode _ _ _ _ _ hstop hstep).mp hnext
    rw [prefix_slice_iff hlength hindex, ← hindex'] at hprefix
    exact ⟨hchar, hindex', hprefix⟩
  · have hpos := length_pos_iff.mpr (utf8Code_ne_nil char)
    refine ⟨by omega, (utf8_decodes.decode _ _ _ _ _ hstop (by omega)).mpr ⟨hchar, hindex', ?_⟩⟩
    rw [prefix_slice_iff hlength hindex, ← hindex']
    exact ⟨hle, hcode⟩

theorem utf8_decoder_exact (hstart : start ≤ stop) (hstop : stop ≤ bytes.length) :
    Utf8DecoderExact bytes start stop where
  accepts := by
    rw [wellFormedUtf8_iff]
    exact exists_congr fun chars => utf8ToString_result hstart hstop
  decodes chars := utf8ToString_result hstart hstop
  within := by
    unfold utf8ToString
    rw [bytesDecoder_some _ hstart hstop]
    refine (utf8_decodes.within hstop hstart (Nat.le_refl _)).mpr fun index _ hle hlt _ => ?_
    exact (utf8Next_within hlt).mono fun i hi => ⟨Nat.le_trans hle hi.1, hi.2⟩
  codecAccepts index _ hindex index' := by
    have hlength : stop ≤ (values bytes).length := by rwa [length_values]
    rw [wellFormedChar_iff]
    refine ⟨fun ⟨char, hchar⟩ => ?_, fun ⟨hle, hlt, char, hchar, hcode⟩ => ⟨char, ?_⟩⟩
    · obtain ⟨hscalar, hindex', hle, hcode⟩ := (utf8CodecDecoder_result hstop hindex).mp hchar
      have hpos := length_pos_iff.mpr (utf8Code_ne_nil char)
      exact ⟨hle, by omega, char, hscalar, hcode.symm⟩
    · refine (utf8CodecDecoder_result hstop hindex).mpr ⟨hchar, ?_, hle, hcode.symm⟩
      rw [hcode, length_slice (by omega)]
      omega
  codecDecodes index _ hindex char index' h := by
    obtain ⟨hscalar, -, -, hcode⟩ := (utf8CodecDecoder_result hstop hindex).mp h
    exact ⟨hscalar, hcode⟩
  codecWithin index _ hindex := by
    have hturn : ∀ hstep : index + 1 ≤ stop, Within (fun i => index ≤ i ∧ i < stop)
        (utf8Next bytes stop index) := fun hstep => utf8Next_within hstep
    exact unicodeCodecDecoder_within hturn

theorem stringToUtf8_iff {string : List Nat} (hstring : ∀ char ∈ string, ScalarValue char) :
    ((∃ encoded, stringToUtf8 string none none = .ok encoded)
      ↔ ∀ char ∈ string, ¬LooksLikeSurrogate char)
    ∧ ∀ encoded, stringToUtf8 string none none = .ok encoded →
        values encoded = string.flatMap utf8Code := by
  obtain ⟨hiff, hvalues⟩ := utf8_encodes.string "string->utf8" string
  refine ⟨hiff.trans ⟨fun h char hmem => ?_, fun h => ⟨fun char hmem => ?_, .inl rfl⟩⟩, hvalues⟩
  · exact (unicodeScalarValue_iff.mp (h.1 char hmem)).2
  · exact unicodeScalarValue_iff.mpr ⟨hstring char hmem, h char hmem⟩

theorem utf8RoundTrips_iff {string : List Nat} (hstring : ∀ char ∈ string, ScalarValue char) :
    Utf8RoundTrips string ↔ ∀ char ∈ string, ¬LooksLikeSurrogate char := by
  obtain ⟨hiff, hvalues⟩ := stringToUtf8_iff hstring
  refine ⟨fun ⟨encoded, hencoded, _⟩ => hiff.mp ⟨encoded, hencoded⟩, fun h => ?_⟩
  obtain ⟨encoded, hencoded⟩ := hiff.mpr h
  refine ⟨encoded, hencoded, ?_⟩
  refine (utf8_decodes.chars (Nat.le_refl _) (Nat.zero_le _) (Nat.le_refl _)).mpr ⟨hstring, ?_⟩
  rw [← length_values encoded, slice_all]
  exact hvalues encoded hencoded

theorem utf8Reencodes_iff (hstart : start ≤ stop) (hstop : stop ≤ bytes.length) :
    Utf8Reencodes bytes start stop
      ↔ ∀ chars : List Nat, (∀ char ∈ chars, ScalarValue char) →
          slice (values bytes) start stop = chars.flatMap utf8Code →
          ∀ char ∈ chars, ¬LooksLikeSurrogate char := by
  refine ⟨fun h chars hchars hcode => ?_, fun h chars hresult => ?_⟩
  · obtain ⟨encoded, hencoded, -⟩ := h chars ((utf8ToString_result hstart hstop).mpr ⟨hchars, hcode⟩)
    exact (stringToUtf8_iff hchars).1.mp ⟨encoded, hencoded⟩
  · obtain ⟨hchars, hcode⟩ := (utf8ToString_result hstart hstop).mp hresult
    obtain ⟨hiff, hvalues⟩ := stringToUtf8_iff hchars
    obtain ⟨encoded, hencoded⟩ := hiff.mpr (h chars hchars hcode)
    exact ⟨encoded, hencoded, (hvalues encoded hencoded).trans hcode.symm⟩

/-- **The UTF-8 codec.** The decoder accepts what is well formed and nothing else, and reads
nothing outside of the range. A string comes back from its encoding, and a range from its
decoding, exactly when no scalar value in it looks like a surrogate: those are not encoded. -/
theorem utf8_exact_iff (hstart : start ≤ stop) (hstop : stop ≤ bytes.length) {string : List Nat}
    (hstring : ∀ char ∈ string, ScalarValue char) :
    Utf8DecoderExact bytes start stop
    ∧ (Utf8DecoderExact bytes start stop ∧ Utf8RoundTrips string ∧ Utf8Reencodes bytes start stop
      ↔ (∀ char ∈ string, ¬LooksLikeSurrogate char)
        ∧ ∀ chars : List Nat, (∀ char ∈ chars, ScalarValue char) →
            slice (values bytes) start stop = chars.flatMap utf8Code →
            ∀ char ∈ chars, ¬LooksLikeSurrogate char) := by
  have hexact := utf8_decoder_exact hstart hstop
  rw [utf8RoundTrips_iff hstring, utf8Reencodes_iff hstart hstop]
  exact ⟨hexact, fun h => h.2, fun h => ⟨hexact, h⟩⟩

end

theorem utf8_exact_iff_letter : Utf8RoundTrips [0x41, 0xE9] := by
  have hempty : ∀ chars : List Nat, (∀ char ∈ chars, ScalarValue char) →
      slice (values []) 0 0 = chars.flatMap utf8Code →
      ∀ char ∈ chars, ¬LooksLikeSurrogate char := by
    intro chars _ hcode char hmem
    exact absurd (flatMap_eq_nil_iff.mp hcode.symm char hmem) (utf8Code_ne_nil char)
  have hstring : ∀ char ∈ [0x41, 0xE9], ScalarValue char ∧ ¬LooksLikeSurrogate char := by
    unfold ScalarValue LooksLikeSurrogate
    decide
  have hexact := @utf8_exact_iff [] 0 0 (Nat.le_refl _) (Nat.le_refl _) [0x41, 0xE9]
    fun char hmem => (hstring char hmem).1
  exact (hexact.2.mpr ⟨fun char hmem => (hstring char hmem).2, hempty⟩).2.1

/-- The letter U+1D800 is a scalar value, but is taken for a surrogate. -/
theorem utf8_letter_rejected :
    ¬∀ string : List Nat, (∀ char ∈ string, ScalarValue char) → Utf8RoundTrips string := by
  intro h
  have hscalar : ∀ char ∈ [0x1D800], ScalarValue char := by
    unfold ScalarValue
    decide
  refine (utf8RoundTrips_iff hscalar).mp (h _ hscalar) 0x1D800 mem_cons_self ?_
  unfold LooksLikeSurrogate
  decide

end MitScheme.Codec
