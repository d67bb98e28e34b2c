import MitScheme.Runtime.Utf8Proof

/-!
# UTF-16 and UTF-32

The codecs with units of two and four bytes, in either byte order. Their loops take a step of one
byte where a unit is longer, so that a unit that is cut off by the end of the range is read all
the same if the bytevector goes on. The encoder for UTF-32 does not return an index, so that a
second character has no place to go.
-/

namespace MitScheme.Codec

open Reading List
open Except (ok)

/-! ## Units -/

/-- What is in a bytevector where a unit is, in its byte order, and what an accessor reads. -/
structure Gets (size limit : Nat) (order : Nat → List Nat)
    (getter : Bytevector → Nat → Reading Error Nat) : Prop where
  length_order : ∀ unit, (order unit).length = size
  result : ∀ bytes index unit, (getter bytes index).result = .ok unit
    ↔ unit < limit ∧ index + size ≤ bytes.length
      ∧ slice (values bytes) index (index + size) = order unit
  total : ∀ bytes index, index + size ≤ bytes.length →
    ∃ unit, (getter bytes index).result = .ok unit
  reads : ∀ bytes index, (getter bytes index).reads
    = if index + size ≤ bytes.length then List.range' index size else []

/-- What a modifier sets. -/
structure Sets (size limit : Nat) (order : Nat → List Nat)
    (setter : Bytevector → Nat → Nat → Except Error Bytevector) : Prop where
  set : ∀ bytes index unit, unit < limit → index + size ≤ bytes.length →
    ∃ bytes', setter bytes index unit = .ok bytes'
      ∧ values bytes' = splice (values bytes) index (order unit)

/-- The most significant byte first. -/
def bigEndian16 (u16 : Nat) : List Nat := [u16 / 0x100, u16 % 0x100]

/-- The least significant byte first. -/
def littleEndian16 (u16 : Nat) : List Nat := [u16 % 0x100, u16 / 0x100]

/-- The most significant byte first. -/
def bigEndian32 (u32 : Nat) : List Nat :=
  [u32 / 0x1000000, u32 / 0x10000 % 0x100, u32 / 0x100 % 0x100, u32 % 0x100]

/-- The least significant byte first. -/
def littleEndian32 (u32 : Nat) : List Nat :=
  [u32 % 0x100, u32 / 0x100 % 0x100, u32 / 0x10000 % 0x100, u32 / 0x1000000]

variable {b0 b1 u : Nat}

theorem bytesToU16be_eq (h1 : b1 < 0x100) : bytesToU16be b0 b1 = b0 * 0x100 + b1 := by
  exact shiftLeft_or_eq h1

theorem bytesToU16le_eq (h0 : b0 < 0x100) : bytesToU16le b0 b1 = b1 * 0x100 + b0 := by
  change b0 ||| b1 <<< 8 = _
  rw [Nat.or_comm]
  exact shiftLeft_or_eq h0

theorem bytesToU32be_eq {b2 b3 : Nat} (h1 : b1 < 0x100) (h2 : b2 < 0x100) (h3 : b3 < 0x100) :
    bytesToU32be b0 b1 b2 b3 = b0 * 0x1000000 + b1 * 0x10000 + b2 * 0x100 + b3 := by
  change (b0 <<< 24 ||| b1 <<< 16) ||| (b2 <<< 8 ||| b3) = _
  rw [Nat.shiftLeft_eq, Nat.shiftLeft_eq, Nat.shiftLeft_eq]
  have h01 : b0 * 2 ^ 24 ||| b1 * 2 ^ 16 = b0 * 2 ^ 24 + b1 * 2 ^ 16 :=
    or_eq_add 24 (Nat.dvd_mul_left _ _) (by omega)
  have h23 : b2 * 2 ^ 8 ||| b3 = b2 * 2 ^ 8 + b3 := or_eq_add 8 (Nat.dvd_mul_left _ _) (by omega)
  rw [or_eq_add 16 (by omega) (by omega)]
  omega

theorem bytevectorU8Ref_eq {bytes : Bytevector} {index b : Nat} (h : (values bytes)[index]? = some b) :
    bytevectorU8Ref bytes index = ⟨[index], .ok b⟩ := by
  rw [values, List.getElem?_map] at h
  obtain ⟨byte, hbyte, rfl⟩ := Option.map_eq_some_iff.mp h
  unfold bytevectorU8Ref
  rw [hbyte]

theorem gets_of {size limit : Nat} {order : Nat → List Nat} {getter : Bytevector → Nat → Reading Error Nat}
    (hlength : ∀ unit, (order unit).length = size)
    (hget : ∀ bytes index, index + size ≤ bytes.length →
      ∃ value, getter bytes index = ⟨List.range' index size, .ok value⟩ ∧ ∀ unit, value = unit
        ↔ unit < limit ∧ slice (values bytes) index (index + size) = order unit)
    (hfail : ∀ bytes index, ¬ index + size ≤ bytes.length → ∃ e, getter bytes index = fail e) :
    Gets size limit order getter where
  length_order := hlength
  result bytes index unit := by
    by_cases hroom : index + size ≤ bytes.length
    · obtain ⟨value, hvalue, hiff⟩ := hget bytes index hroom
      rw [hvalue, ok.injEq, hiff]
      exact ⟨fun h => ⟨h.1, hroom, h.2⟩, fun h => ⟨h.1, h.2.2⟩⟩
    · obtain ⟨e, he⟩ := hfail bytes index hroom
      rw [he]
      exact ⟨fun h => (nomatch h), fun h => absurd h.2.1 hroom⟩
  total bytes index hroom := by
    obtain ⟨value, hvalue, -⟩ := hget bytes index hroom
    exact ⟨value, by rw [hvalue]⟩
  reads bytes index := by
    split
    · obtain ⟨value, hvalue, -⟩ := hget bytes index ‹_›
      rw [hvalue]
    · obtain ⟨e, he⟩ := hfail bytes index ‹_›
      rw [he]
      rfl

theorem gets_u16 {bytesToU16 : Nat → Nat → Nat} {order : Nat → List Nat}
    (horder : ∀ b0 b1 unit, b0 < 0x100 → b1 < 0x100 →
      (bytesToU16 b0 b1 = unit ↔ unit < 0x10000 ∧ [b0, b1] = order unit))
    (hlength : ∀ unit, (order unit).length = 2) (caller : String) :
    Gets 2 0x10000 order (bytevectorU16Ref bytesToU16 caller) := by
  refine gets_of hlength (fun bytes index hroom => ?_) fun bytes index hroom => ⟨_, if_neg (by omega)⟩
  obtain ⟨b0, hb0, h0⟩ := exists_value (show index < bytes.length by omega)
  obtain ⟨b1, hb1, h1⟩ := exists_value (show index + 1 < bytes.length by omega)
  refine ⟨bytesToU16 b0 b1, ?_, fun unit => ?_⟩
  · unfold bytevectorU16Ref
    rw [if_pos (by omega), bytevectorU8Ref_eq hb0, bytevectorU8Ref_eq hb1]
    rfl
  · rw [slice_cons hb0 (by omega), slice_cons hb1 (by omega), slice_self]
    exact horder b0 b1 unit h0 h1

theorem gets_u32 {bytesToU32 : Nat → Nat → Nat → Nat → Nat} {order : Nat → List Nat}
    (horder : ∀ b0 b1 b2 b3 unit, b0 < 0x100 → b1 < 0x100 → b2 < 0x100 → b3 < 0x100 →
      (bytesToU32 b0 b1 b2 b3 = unit ↔ unit < 0x100000000 ∧ [b0, b1, b2, b3] = order unit))
    (hlength : ∀ unit, (order unit).length = 4) (caller : String) :
    Gets 4 0x100000000 order (bytevectorU32Ref bytesToU32 caller) := by
  refine gets_of hlength (fun bytes index hroom => ?_) fun bytes index hroom => ⟨_, if_neg (by omega)⟩
  obtain ⟨b0, hb0, h0⟩ := exists_value (show index < bytes.length by omega)
  obtain ⟨b1, hb1, h1⟩ := exists_value (show index + 1 < bytes.length by omega)
  obtain ⟨b2, hb2, h2⟩ := exists_value (show index + 2 < bytes.length by omega)
  obtain ⟨b3, hb3, h3⟩ := exists_value (show index + 3 < bytes.length by omega)
  refine ⟨bytesToU32 b0 b1 b2 b3, ?_, fun unit => ?_⟩
  · unfold bytevectorU32Ref
    rw [if_pos (by omega), bytevectorU8Ref_eq hb0, bytevectorU8Ref_eq hb1, bytevectorU8Ref_eq hb2,
      bytevectorU8Ref_eq hb3]
    rfl
  · rw [slice_cons hb0 (by omega), slice_cons hb1 (by omega), slice_cons hb2 (by omega),
      slice_cons hb3 (by omega), slice_self]
    exact horder b0 b1 b2 b3 unit h0 h1 h2 h3

theorem gets_u16be : Gets 2 0x10000 bigEndian16 bytevectorU16beRef := by
  refine gets_u16 (fun b0 b1 unit h0 h1 => ?_) (fun _ => rfl) _
  rw [bytesToU16be_eq h1, bigEndian16]
  simp only [List.cons.injEq, and_true]
  omega

theorem gets_u16le : Gets 2 0x10000 littleEndian16 bytevectorU16leRef := by
  refine gets_u16 (fun b0 b1 unit h0 h1 => ?_) (fun _ => rfl) _
  rw [bytesToU16le_eq h0, littleEndian16]
  simp only [List.cons.injEq, and_true]
  omega

theorem gets_u32be : Gets 4 0x100000000 bigEndian32 bytevectorU32beRef := by
  refine gets_u32 (fun b0 b1 b2 b3 unit h0 h1 h2 h3 => ?_) (fun _ => rfl) _
  rw [bytesToU32be_eq h1 h2 h3, bigEndian32]
  simp only [List.cons.injEq, and_true]
  omega

theorem gets_u32le : Gets 4 0x100000000 littleEndian32 bytevectorU32leRef := by
  refine gets_u32 (fun b0 b1 b2 b3 unit h0 h1 h2 h3 => ?_) (fun _ => rfl) _
  rw [bytesToU32le, bytesToU32be_eq h2 h1 h0, littleEndian32]
  simp only [List.cons.injEq, and_true]
  omega

theorem sets_u16 {byte0 byte1 : Nat → Nat} {order : Nat → List Nat}
    (horder : ∀ unit, unit < 0x10000 → byte0 unit < 0x100 ∧ byte1 unit < 0x100
      ∧ [byte0 unit, byte1 unit] = order unit) (rangeCaller caller : String) :
    Sets 2 0x10000 order (bytevectorU16Set byte0 byte1 rangeCaller caller) where
  set bytes index unit hunit hroom := by
    obtain ⟨h0, h1, hbytes⟩ := horder unit hunit
    have hstart : values bytes = splice (values bytes) index [] := (splice_nil _ _).symm
    obtain ⟨bytes₁, hset₁, hvalues₁⟩ := bytevectorU8Set_next hstart (b := byte0 unit)
      (Nat.lt_of_lt_of_le (by simp) hroom) h0
    obtain ⟨bytes₂, hset₂, hvalues₂⟩ := bytevectorU8Set_next hvalues₁ (b := byte1 unit)
      (Nat.lt_of_lt_of_le (by simp) hroom) h1
    refine ⟨bytes₂, ?_, hbytes ▸ hvalues₂⟩
    unfold bytevectorU16Set
    rw [if_pos (by omega)]
    refine bind_eq_ok.mpr ⟨(), if_pos (by simpa [u16P] using hunit), ?_⟩
    exact bind_eq_ok.mpr ⟨bytes₁, hset₁, hset₂⟩

theorem sets_u32 {byte0 byte1 byte2 byte3 : Nat → Nat} {order : Nat → List Nat}
    (horder : ∀ unit, unit < 0x100000000 → byte0 unit < 0x100 ∧ byte1 unit < 0x100
      ∧ byte2 unit < 0x100 ∧ byte3 unit < 0x100
      ∧ [byte0 unit, byte1 unit, byte2 unit, byte3 unit] = order unit)
    (rangeCaller caller : String) :
    Sets 4 0x100000000 order (bytevectorU32Set byte0 byte1 byte2 byte3 rangeCaller caller) where
  set bytes index unit hunit hroom := by
    obtain ⟨h0, h1, h2, h3, hbytes⟩ := horder unit hunit
    have hstart : values bytes = splice (values bytes) index [] := (splice_nil _ _).symm
    obtain ⟨bytes₁, hset₁, hvalues₁⟩ := bytevectorU8Set_next hstart (b := byte0 unit)
      (Nat.lt_of_lt_of_le (by simp) hroom) h0
    obtain ⟨bytes₂, hset₂, hvalues₂⟩ := bytevectorU8Set_next hvalues₁ (b := byte1 unit)
      (Nat.lt_of_lt_of_le (by simp) hroom) h1
    obtain ⟨bytes₃, hset₃, hvalues₃⟩ := bytevectorU8Set_next hvalues₂ (b := byte2 unit)
      (Nat.lt_of_lt_of_le (by simp) hroom) h2
    obtain ⟨bytes₄, hset₄, hvalues₄⟩ := bytevectorU8Set_next hvalues₃ (b := byte3 unit)
      (Nat.lt_of_lt_of_le (by simp) hroom) h3
    refine ⟨bytes₄, ?_, hbytes ▸ hvalues₄⟩
    unfold bytevectorU32Set
    rw [if_pos (by omega)]
    refine bind_eq_ok.mpr ⟨(), if_pos ?_, bind_eq_ok.mpr ⟨bytes₁, hset₁, ?_⟩⟩
    · rw [u32P, decide_eq_true_iff]
      omega
    · exact bind_eq_ok.mpr ⟨bytes₂, hset₂, bind_eq_ok.mpr ⟨bytes₃, hset₃, hset₄⟩⟩

theorem fixLsh_and_mask (unit j : Nat) :
    fixLsh unit (Int.negSucc j) &&& 0xFF = unit / 2 ^ (j + 1) % 0x100 := by
  change unit >>> (j + 1) &&& 0xFF = _
  rw [Nat.shiftRight_eq_div_pow]
  exact and_mask _ 8

theorem fixLsh_right (unit j : Nat) : fixLsh unit (Int.negSucc j) = unit / 2 ^ (j + 1) :=
  Nat.shiftRight_eq_div_pow unit (j + 1)

theorem sets_u16be : Sets 2 0x10000 bigEndian16 bytevectorU16beSet := by
  refine sets_u16 (fun unit hunit => ?_) _ _
  have hb0 : fixLsh unit (-8) = unit / 0x100 := fixLsh_right unit 7
  have hb1 : unit &&& 0xFF = unit % 0x100 := and_mask unit 8
  rw [hb0, hb1]
  exact ⟨by omega, by omega, rfl⟩

theorem sets_u16le : Sets 2 0x10000 littleEndian16 bytevectorU16leSet := by
  refine sets_u16 (fun unit hunit => ?_) _ _
  have hb0 : fixLsh unit (-8) = unit / 0x100 := fixLsh_right unit 7
  have hb1 : unit &&& 0xFF = unit % 0x100 := and_mask unit 8
  rw [hb0, hb1]
  exact ⟨by omega, by omega, rfl⟩

theorem u32beBytes_eq (u32 : Nat) :
    u32beByte0 u32 = u32 / 0x1000000 ∧ u32beByte1 u32 = u32 / 0x10000 % 0x100
      ∧ u32beByte2 u32 = u32 / 0x100 % 0x100 ∧ u32beByte3 u32 = u32 % 0x100 :=
  ⟨fixLsh_right u32 23, fixLsh_and_mask u32 15, fixLsh_and_mask u32 7, and_mask u32 8⟩

theorem sets_u32be : Sets 4 0x100000000 bigEndian32 bytevectorU32beSet := by
  refine sets_u32 (fun unit hunit => ?_) _ _
  obtain ⟨hb0, hb1, hb2, hb3⟩ := u32beBytes_eq unit
  rw [hb0, hb1, hb2, hb3]
  exact ⟨by omega, by omega, by omega, by omega, rfl⟩

theorem sets_u32le : Sets 4 0x100000000 littleEndian32 bytevectorU32leSet := by
  refine sets_u32 (fun unit hunit => ?_) _ _
  obtain ⟨hb0, hb1, hb2, hb3⟩ := u32beBytes_eq unit
  rw [hb0, hb1, hb2, hb3]
  exact ⟨by omega, by omega, by omega, by omega, rfl⟩

/-! ## UTF-16 -/

/-- The units of a scalar value. -/
def utf16Units (cp : Nat) : List Nat :=
  if cp < 0x10000 then [cp]
  else [0xD800 + (cp - 0x10000) / 0x400, 0xDC00 + (cp - 0x10000) % 0x400]

/-- The bytes of a scalar value. -/
def utf16Code (order : Nat → List Nat) (cp : Nat) : List Nat := (utf16Units cp).flatMap order

theorem utf16Units_one {cp : Nat} :
    ScalarValue cp ∧ utf16Units cp = [u] ↔ u < 0x10000 ∧ (u < 0xD800 ∨ 0xDFFF < u) ∧ cp = u := by
  unfold ScalarValue utf16Units
  split
  · simp only [List.cons.injEq, and_true]
    omega
  · simp only [List.cons.injEq, reduceCtorEq, and_false, false_iff]
    omega

theorem utf16Units_two {v cp : Nat} :
    ScalarValue cp ∧ utf16Units cp = [u, v]
      ↔ (0xD800 ≤ u ∧ u ≤ 0xDBFF) ∧ (0xDC00 ≤ v ∧ v ≤ 0xDFFF)
        ∧ cp = u % 0x400 * 0x400 + v % 0x400 + 0x10000 := by
  unfold ScalarValue utf16Units
  split
  · simp only [List.cons.injEq, reduceCtorEq, and_false, false_iff]
    omega
  · simp only [List.cons.injEq, and_true]
    omega

theorem utf16LowSurrogate_iff (h : u < 0x10000) :
    utf16LowSurrogate u = true ↔ 0xDC00 ≤ u ∧ u ≤ 0xDFFF := by
  have hmask : 0xFC00 &&& u = u / 1024 % 64 * 1024 := mask_shifted u 10 6
  rw [utf16LowSurrogate, decide_eq_true_iff]
  omega

theorem utf16HighSurrogate_iff (h : u < 0x10000) :
    utf16HighSurrogate u = true ↔ 0xD800 ≤ u ∧ u ≤ 0xDBFF := by
  have hmask : 0xFC00 &&& u = u / 1024 % 64 * 1024 := mask_shifted u 10 6
  rw [utf16HighSurrogate, decide_eq_true_iff]
  omega

theorem initialU16ToUtf16CharLength_iff {n : Nat} (h : u < 0x10000) :
    initialU16ToUtf16CharLength u = .ok n
      ↔ (n = 2 ∧ (u < 0xD800 ∨ 0xDFFF < u)) ∨ (n = 4 ∧ 0xD800 ≤ u ∧ u ≤ 0xDBFF) := by
  have hguarantee : guarantee u16P "u16" u "initial-u16->utf16-char-length" = .ok () :=
    if_pos (by simpa [u16P] using h)
  unfold initialU16ToUtf16CharLength
  rw [hguarantee]
  split
  · rename_i hlow
    rw [utf16LowSurrogate_iff h] at hlow
    refine ⟨fun heq => (nomatch heq), fun hcases => ?_⟩
    omega
  rename_i hlow
  rw [utf16LowSurrogate_iff h] at hlow
  split
  · rename_i hhigh
    rw [utf16HighSurrogate_iff h] at hhigh
    change ok 4 = ok n ↔ _
    rw [ok.injEq]
    omega
  · rename_i hhigh
    rw [utf16HighSurrogate_iff h] at hhigh
    change ok 2 = ok n ↔ _
    rw [ok.injEq]
    omega

section

variable {order : Nat → List Nat} {getter : Bytevector → Nat → Reading Error Nat}

variable {bytes : Bytevector} {index : Nat}

theorem Gets.order_inj {size limit : Nat} (h : Gets size limit order getter)
    {u v : Nat} (hu : (getter bytes index).result = .ok u) (hv : v < limit)
    (heq : slice (values bytes) index (index + size) = order v) : u = v := by
  obtain ⟨-, hroom, -⟩ := (h.result bytes index u).mp hu
  have hv' := (h.result bytes index v).mpr ⟨hv, hroom, heq⟩
  rw [hu, ok.injEq] at hv'
  exact hv'

theorem utf16CharDecoder_result (h : Gets 2 0x10000 order getter)
    {u n cp : Nat} (hu : (getter bytes index).result = .ok u)
    (hn : initialU16ToUtf16CharLength u = .ok n) (hroom : index + n ≤ bytes.length) :
    (utf16CharDecoder getter bytes index).result = .ok cp
      ↔ ScalarValue cp ∧ utf16Code order cp = slice (values bytes) index (index + n) := by
  obtain ⟨hlimit, -, hslice⟩ := (h.result bytes index u).mp hu
  unfold utf16CharDecoder
  rw [result_bind_of_ok hu]
  simp only [utf16LowSurrogate_iff hlimit, utf16HighSurrogate_iff hlimit]
  rcases (initialU16ToUtf16CharLength_iff hlimit).mp hn with ⟨rfl, hrange⟩ | ⟨rfl, hrange⟩
  · -- one unit
    rw [if_neg (by omega), if_neg (by omega), result_pure, ok.injEq]
    refine ⟨fun heq => ?_, fun ⟨hscalar, hcode⟩ => ?_⟩
    · obtain ⟨hscalar, hunits⟩ := utf16Units_one.mpr ⟨hlimit, hrange, heq.symm⟩
      refine ⟨hscalar, ?_⟩
      rw [utf16Code, hunits, flatMap_singleton, hslice]
    · by_cases hone : cp < 0x10000
      · have hunits : utf16Units cp = [cp] := if_pos hone
        rw [utf16Code, hunits, flatMap_singleton] at hcode
        exact h.order_inj hu hone hcode.symm
      · have hcount := congrArg List.length hcode
        rw [length_slice (by rwa [length_values]), utf16Code, utf16Units, if_neg hone,
          flatMap_cons, flatMap_singleton, length_append, h.length_order,
          h.length_order] at hcount
        omega
  · -- two units
    obtain ⟨v, hv⟩ := h.total bytes (index + 2) (by omega)
    obtain ⟨hlimit', -, hslice'⟩ := (h.result bytes (index + 2) v).mp hv
    have hwhole : slice (values bytes) index (index + 4) = order u ++ order v := by
      rw [← hslice, ← hslice', slice_append _ (by omega) (by omega)]
    rw [if_neg (by omega), if_pos hrange, result_bind_of_ok hv, hwhole]
    have hcode : ScalarValue cp ∧ utf16Code order cp = order u ++ order v
        ↔ ScalarValue cp ∧ utf16Units cp = [u, v] := by
      refine and_congr_right fun hscalar => ⟨fun hcode => ?_, fun hunits => ?_⟩
      · by_cases hone : cp < 0x10000
        · have hcount := congrArg List.length hcode
          rw [utf16Code, utf16Units, if_pos hone, flatMap_singleton, length_append,
            h.length_order, h.length_order, h.length_order] at hcount
          omega
        · rw [utf16Code, utf16Units, if_neg hone, flatMap_cons, flatMap_singleton] at hcode
          obtain ⟨hfirst, hsecond⟩ := append_inj hcode (by
            rw [h.length_order, h.length_order])
          unfold ScalarValue at hscalar
          rw [utf16Units, if_neg hone, h.order_inj hu (by omega) (hslice.trans hfirst.symm),
            h.order_inj hv (by omega) (hslice'.trans hsecond.symm)]
      · rw [utf16Code, hunits, flatMap_cons, flatMap_singleton]
    have hextract : extractBits u 0x3FF 10 ||| extractBits v 0x3FF 0
        = u % 0x400 * 0x400 + v % 0x400 := by
      have h0 : extractBits u 0x3FF 10 = u % 1024 * 1024 := extractBits_eq u 10 10
      have h1 : extractBits v 0x3FF 0 = v % 1024 * 1 := extractBits_eq v 10 0
      rw [or_eq_add 10 (by omega) (by omega)]
      omega
    rw [hcode, utf16Units_two, result_guard, utf16LowSurrogate_iff hlimit']
    omega

theorem utf16Code_ne_nil (h : Gets 2 0x10000 order getter) (cp : Nat) : utf16Code order cp ≠ [] := by
  intro hnil
  have hcount := congrArg List.length hnil
  unfold utf16Code utf16Units at hcount
  split at hcount
  · rw [flatMap_singleton, h.length_order] at hcount
    cases hcount
  · rw [flatMap_cons, length_append, h.length_order, length_nil] at hcount
    omega

theorem utf16_decodes (h : Gets 2 0x10000 order getter) (noun : String) :
    Decodes ScalarValue (utf16Code order)
      (decodeNext getter initialU16ToUtf16CharLength (utf16CharDecoder getter) noun) := by
  refine Decodes.of_units (fun cp _ => utf16Code_ne_nil h cp) ?_ ?_
  · intro bytes index cp hcp hroom hcode
    unfold utf16Code at hroom hcode ⊢
    by_cases hone : cp < 0x10000
    · have hunits : utf16Units cp = [cp] := if_pos hone
      rw [hunits, flatMap_singleton, h.length_order] at hroom hcode ⊢
      have hrange := utf16Units_one.mp ⟨hcp, hunits⟩
      refine ⟨cp, (h.result _ _ _).mpr ⟨hone, hroom, hcode⟩, ?_⟩
      exact (initialU16ToUtf16CharLength_iff hone).mpr (.inl ⟨rfl, hrange.2.1⟩)
    · have hunits : utf16Units cp = [_, _] := if_neg hone
      obtain ⟨hrange, -, -⟩ := utf16Units_two.mp ⟨hcp, hunits⟩
      rw [hunits, flatMap_cons, flatMap_singleton, length_append, h.length_order,
        h.length_order] at hroom hcode ⊢
      rw [← slice_append _ (show index ≤ index + 2 by omega) (by omega)] at hcode
      obtain ⟨hfirst, -⟩ := append_inj hcode (by
        rw [h.length_order, length_slice (by rw [length_values]; omega)]
        omega)
      refine ⟨_, (h.result _ _ _).mpr ⟨?_, by omega, hfirst⟩, ?_⟩
      · omega
      · exact (initialU16ToUtf16CharLength_iff (by omega)).mpr (.inr ⟨rfl, hrange⟩)
  · intro bytes index u n cp hu hn hroom
    exact utf16CharDecoder_result h hu hn hroom

theorem utf16Next_within (h : Gets 2 0x10000 order getter) (noun : String)
    {start stop : Nat} (hstop : stop ≤ bytes.length) (hstart : start ≤ index)
    (hindex : index < stop) :
    Within (fun i => start ≤ i ∧ i < stop)
        (decodeNext getter initialU16ToUtf16CharLength (utf16CharDecoder getter) noun bytes stop
          index)
      ↔ ¬(stop < index + 2 ∧ index + 2 ≤ bytes.length) := by
  refine ⟨fun hwithin hcut => ?_, fun hwhole => ?_⟩
  · have hread := hwithin.of_bind_left (index + 1) (by
      rw [h.reads, if_pos hcut.2]
      simp)
    omega
  · have hget : ∀ j, index ≤ j → j + 2 ≤ stop →
        Within (fun i => start ≤ i ∧ i < stop) (getter bytes j) := by
      intro j hj hroom i hi
      rw [h.reads, if_pos (by omega)] at hi
      have hrange := mem_range'_1.mp hi
      omega
    by_cases hcut : stop < index + 2
    · -- the bytevector ends here, too
      have hnone : (getter bytes index).reads = [] := by
        rw [h.reads, if_neg (by omega)]
      refine Within.bind (fun i hi => ?_) fun u hu => ?_
      · rw [hnone] at hi
        cases hi
      · obtain ⟨-, hroom, -⟩ := (h.result _ _ _).mp hu
        omega
    · refine (hget index (Nat.le_refl _) (by omega)).bind fun u hu => ?_
      obtain ⟨hlimit, -, -⟩ := (h.result _ _ _).mp hu
      refine Within.bind (fun _ hi => (nomatch hi)) fun n hn => ?_
      have hlength := (initialU16ToUtf16CharLength_iff hlimit).mp hn
      dsimp only
      split
      · refine Within.bind ?_ fun _ _ => within_pure _
        refine (hget index (Nat.le_refl _) (by omega)).bind fun u' hu' => ?_
        rw [hu, ok.injEq] at hu'
        subst hu'
        simp only [utf16LowSurrogate_iff hlimit, utf16HighSurrogate_iff hlimit]
        split
        · exact within_fail _
        split
        · refine (hget (index + 2) (by omega) (by omega)).bind fun v _ => ?_
          exact within_guard _ _
        · exact within_pure _
      · refine Within.bind (fun i hi => ?_) fun _ _ => within_fail _
        have hrange := mem_range'_1.mp hi
        omega

end

end MitScheme.Codec
