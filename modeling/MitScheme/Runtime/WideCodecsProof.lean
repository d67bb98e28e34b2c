import MitScheme.Runtime.WideCodecs

/-!
# The codecs for UTF-16 and UTF-32

Which strings come back from their encodings, what the decoders accept, and when they read behind
the end of their range.
-/

namespace MitScheme.Codec

open Reading List

variable {order : Nat → List Nat} {getter : Bytevector → Nat → Reading Error Nat}
  {setter : Bytevector → Nat → Nat → Except Error Bytevector}

/-! ## Encoding -/

theorem scalar_limit {char : Nat} (h : unicodeScalarValue char = true) : char < 0x110000 := by
  obtain ⟨hscalar, -⟩ := unicodeScalarValue_iff.mp h
  unfold ScalarValue at hscalar
  omega

theorem insertBits_ten (n lead j : Nat) (hlead : 2 ^ 10 ∣ lead) :
    lead ||| insertBits n 0x3FF (Int.negSucc j) = lead + n / 2 ^ (j + 1) % 0x400 := by
  have hmask : insertBits n 0x3FF (Int.negSucc j) = n / 2 ^ (j + 1) % 0x400 := by
    change n >>> (j + 1) &&& 0x3FF = _
    rw [Nat.shiftRight_eq_div_pow]
    exact and_mask _ 10
  rw [hmask]
  exact or_eq_add 10 hlead (Nat.mod_lt _ (by decide))

theorem utf16_encodes (hlength : ∀ unit, (order unit).length = 2) (hsets : Sets 2 0x10000 order setter)
    (caller : String) :
    Encodes (fun char => unicodeScalarValue char = true) (utf16Code order) true charUtf16ByteLength
      (utf16CharEncoder setter caller) where
  byteLength char h := by
    unfold charUtf16ByteLength
    rw [charToScalarValue_eq h]
    change Except.ok _ = Except.ok _
    unfold utf16Code utf16Units
    split
    · rw [flatMap_singleton, hlength]
    · rw [flatMap_cons, flatMap_singleton, length_append, hlength, hlength]
  rejects char h := by
    unfold charUtf16ByteLength
    rw [charToScalarValue_error h]
    exact ⟨_, rfl⟩
  encode char bytes index h hroom := by
    have hlimit := scalar_limit h
    unfold utf16CharEncoder
    rw [charToScalarValue_eq h]
    change ∃ bytes', (if char < 0x10000 then _ else _ : Except Error (Bytevector × Option Nat)) = _ ∧ _
    unfold utf16Code utf16Units at hroom ⊢
    split
    · rename_i hone
      rw [if_pos hone, flatMap_singleton, hlength] at hroom
      rw [flatMap_singleton, hlength]
      obtain ⟨bytes₁, hset₁, hvalues₁⟩ := hsets.set bytes index char hone hroom
      exact ⟨bytes₁, bind_eq_ok.mpr ⟨bytes₁, hset₁, rfl⟩, hvalues₁⟩
    · rename_i hone
      rw [if_neg hone, flatMap_cons, flatMap_singleton, length_append, hlength,
        hlength] at hroom
      rw [flatMap_cons, flatMap_singleton, length_append, hlength, hlength]
      have hhigh : 0xD800 ||| insertBits (char - 0x10000) 0x3FF (-10)
          = 0xD800 + (char - 0x10000) / 0x400 := by
        have hbits := insertBits_ten (char - 0x10000) 0xD800 9 (by decide)
        rw [Nat.mod_eq_of_lt (by omega)] at hbits
        exact hbits
      have hlow : 0xDC00 ||| insertBits (char - 0x10000) 0x3FF 0
          = 0xDC00 + (char - 0x10000) % 0x400 := by
        have hmask : insertBits (char - 0x10000) 0x3FF 0 = (char - 0x10000) % 0x400 :=
          and_mask _ 10
        rw [hmask]
        exact or_eq_add 10 (by decide) (Nat.mod_lt _ (by decide))
      rw [hhigh, hlow]
      obtain ⟨bytes₁, hset₁, hvalues₁⟩ :=
        hsets.set bytes index (0xD800 + (char - 0x10000) / 0x400) (by omega) (by omega)
      have hlength₁ : bytes₁.length = bytes.length := by
        rw [← length_values bytes₁, hvalues₁, length_splice, length_values]
        rw [hlength, length_values]
        omega
      obtain ⟨bytes₂, hset₂, hvalues₂⟩ :=
        hsets.set bytes₁ (index + 2) (0xDC00 + (char - 0x10000) % 0x400) (by omega) (by omega)
      refine ⟨bytes₂, bind_eq_ok.mpr ⟨bytes₁, hset₁, bind_eq_ok.mpr ⟨bytes₂, hset₂, rfl⟩⟩, ?_⟩
      have happend : splice (splice (values bytes) index (order (0xD800 + (char - 0x10000) / 0x400)))
          (index + (order (0xD800 + (char - 0x10000) / 0x400)).length)
          (order (0xDC00 + (char - 0x10000) % 0x400)) = splice (values bytes) index _ :=
        splice_append (by rw [hlength, length_values]; omega)
      rw [hlength] at happend
      rw [hvalues₂, hvalues₁, happend]

theorem utf32_encodes (hlength : ∀ unit, (order unit).length = 4)
    (hsets : Sets 4 0x100000000 order setter) (caller : String) :
    Encodes (fun char => unicodeScalarValue char = true) order false charUtf32ByteLength
      (utf32CharEncoder setter caller) where
  byteLength char h := by
    unfold charUtf32ByteLength
    rw [charToScalarValue_eq h, hlength]
    rfl
  rejects char h := by
    unfold charUtf32ByteLength
    rw [charToScalarValue_error h]
    exact ⟨_, rfl⟩
  encode char bytes index h hroom := by
    have hlimit := scalar_limit h
    rw [hlength] at hroom
    unfold utf32CharEncoder
    rw [charToScalarValue_eq h]
    obtain ⟨bytes₁, hset₁, hvalues₁⟩ := hsets.set bytes index char (by omega) hroom
    exact ⟨bytes₁, bind_eq_ok.mpr ⟨char, rfl, bind_eq_ok.mpr ⟨bytes₁, hset₁, rfl⟩⟩, hvalues₁⟩

/-! ## Decoding UTF-32 -/

theorem initialU32ToUtf32CharLength_iff {u n : Nat} :
    initialU32ToUtf32CharLength u = .ok n ↔ n = 4 ∧ unicodeScalarValue u = true := by
  unfold initialU32ToUtf32CharLength guarantee
  split
  · rename_i h
    change Except.ok 4 = Except.ok n ↔ _
    rw [Except.ok.injEq]
    exact ⟨fun heq => ⟨heq.symm, h⟩, fun hn => hn.1.symm⟩
  · rename_i h
    exact ⟨fun heq => (nomatch heq), fun hn => absurd hn.2 h⟩

theorem utf32_decodes (h : Gets 4 0x100000000 order getter) (noun : String) :
    Decodes (fun char => unicodeScalarValue char = true) order
      (decodeNext getter initialU32ToUtf32CharLength (utf32CharDecoder getter) noun) := by
  refine Decodes.of_units (fun char _ hnil => ?_) ?_ ?_
  · have hcount := h.length_order char
    rw [hnil] at hcount
    cases hcount
  · intro bytes index char hchar hroom hcode
    rw [h.length_order] at hroom hcode ⊢
    have hlimit := scalar_limit hchar
    refine ⟨char, (h.result _ _ _).mpr ⟨by omega, hroom, hcode⟩, ?_⟩
    exact initialU32ToUtf32CharLength_iff.mpr ⟨rfl, hchar⟩
  · intro bytes index u n char hu hn hroom
    obtain ⟨rfl, hscalar⟩ := initialU32ToUtf32CharLength_iff.mp hn
    obtain ⟨-, -, hslice⟩ := (h.result bytes index u).mp hu
    have hguarantee : (lift (guarantee unicodeScalarValue "a Unicode scalar value" u
        "utf32-char-decoder") : Reading Error Unit).result = .ok () := if_pos hscalar
    unfold utf32CharDecoder
    rw [result_bind_of_ok hu, result_bind_of_ok hguarantee, result_pure, Except.ok.injEq]
    refine ⟨fun heq => heq ▸ ⟨hscalar, hslice.symm⟩, fun ⟨hchar, hcode⟩ => ?_⟩
    have hlimit := scalar_limit hchar
    exact h.order_inj hu (by omega) hcode.symm

theorem utf32Next_within (h : Gets 4 0x100000000 order getter) (noun : String)
    {bytes : Bytevector} {start stop index : Nat} (hstart : start ≤ index) (hindex : index < stop) :
    Within (fun i => start ≤ i ∧ i < stop)
        (decodeNext getter initialU32ToUtf32CharLength (utf32CharDecoder getter) noun bytes stop
          index)
      ↔ ¬(stop < index + 4 ∧ index + 4 ≤ bytes.length) := by
  refine ⟨fun hwithin hcut => ?_, fun hwhole => ?_⟩
  · have hread := hwithin.of_bind_left (index + 3) (by
      rw [h.reads, if_pos hcut.2]
      simp)
    omega
  · have hget : Within (fun i => start ≤ i ∧ i < stop) (getter bytes index) := by
      intro i hi
      rw [h.reads] at hi
      split at hi
      · have hrange := mem_range'_1.mp hi
        omega
      · cases hi
    refine hget.bind fun u hu => Within.bind (fun _ hi => (nomatch hi)) fun n hn => ?_
    dsimp only
    split
    · refine Within.bind ?_ fun _ _ => within_pure _
      exact hget.bind fun _ _ => Within.bind (fun _ hi => (nomatch hi)) fun _ _ => within_pure _
    · refine Within.bind (fun i hi => ?_) fun _ _ => within_fail _
      have hrange := mem_range'_1.mp hi
      omega

/-! ## The four codecs -/

/-- The codecs with units of more than one byte. -/
inductive WideCodec where
  | utf16be
  | utf16le
  | utf32be
  | utf32le

namespace WideCodec

/-- The bytes of a unit. -/
def unitSize : WideCodec → Nat
  | utf16be | utf16le => 2
  | utf32be | utf32le => 4

/-- The bytes of a scalar value. -/
def code : WideCodec → Nat → List Nat
  | utf16be => utf16Code bigEndian16
  | utf16le => utf16Code littleEndian16
  | utf32be => bigEndian32
  | utf32le => littleEndian32

/-- The scalar values that the decoder accepts: the one for UTF-32 makes the same test as the
encoders. -/
def Accepts : WideCodec → Nat → Prop
  | utf16be | utf16le => ScalarValue
  | utf32be | utf32le => fun char => unicodeScalarValue char = true

def encode : WideCodec → List Nat → Option Nat → Option Nat → Except Error Bytevector
  | utf16be => stringToUtf16be
  | utf16le => stringToUtf16le
  | utf32be => stringToUtf32be
  | utf32le => stringToUtf32le

def decode : WideCodec → Bytevector → Option Nat → Option Nat → Reading Error (List Nat)
  | utf16be => utf16beToString
  | utf16le => utf16leToString
  | utf32be => utf32beToString
  | utf32le => utf32leToString

/-- The decoder that `unicode-codec` makes. -/
def decoder : WideCodec → Bytevector → Nat → Nat → Reading Error (Option Nat × Nat)
  | utf16be => unicodeCodecDecoder nextCharLengthUtf16be (utf16CharDecoder bytevectorU16beRef)
  | utf16le => unicodeCodecDecoder nextCharLengthUtf16le (utf16CharDecoder bytevectorU16leRef)
  | utf32be => unicodeCodecDecoder nextCharLengthUtf32be (utf32CharDecoder bytevectorU32beRef)
  | utf32le => unicodeCodecDecoder nextCharLengthUtf32le (utf32CharDecoder bytevectorU32leRef)

end WideCodec

/-- After some whole codes there is the beginning of a unit, which is cut off by the end of the
range, but not by the end of the bytevector. -/
def CutUnit (codec : WideCodec) (bytes : Bytevector) (start stop : Nat) : Prop :=
  ∃ index chars, start ≤ index ∧ index < stop ∧ stop < index + codec.unitSize
    ∧ index + codec.unitSize ≤ bytes.length
    ∧ Encoded codec.Accepts codec.code bytes start index chars

/-- What a codec should do with a string, and with a part of a bytevector. -/
structure WideExact (codec : WideCodec) (string : List Nat) (bytes : Bytevector)
    (start stop : Nat) : Prop where
  roundTrips : ∃ encoded, codec.encode string none none = .ok encoded
    ∧ (codec.decode encoded none none).result = .ok string
  rejects : ∀ chars, (codec.decode bytes (some start) (some stop)).result = .ok chars →
    Encoded ScalarValue codec.code bytes start stop chars
  within : Within (fun i => start ≤ i ∧ i < stop) (codec.decode bytes (some start) (some stop))

section

variable {scalar : Nat → Prop} {code : Nat → List Nat} {initialToLength : Nat → Except Error Nat}
  {decodeChar : Bytevector → Nat → Reading Error Nat} {noun : String} {size : Nat}
  {bytes : Bytevector} {start stop : Nat}

theorem Decodes.range
    (h : Decodes scalar code (decodeNext getter initialToLength decodeChar noun))
    (hwithin : ∀ bytes start stop index, stop ≤ bytes.length → start ≤ index → index < stop →
      (Within (fun i => start ≤ i ∧ i < stop)
          (decodeNext getter initialToLength decodeChar noun bytes stop index)
        ↔ ¬(stop < index + size ∧ index + size ≤ bytes.length)))
    (caller : String) (hstart : start ≤ stop) (hstop : stop ≤ bytes.length) :
    (∀ chars, (bytesDecoder getter initialToLength decodeChar 1 noun bytes caller (some start)
        (some stop)).result = .ok chars ↔ Encoded scalar code bytes start stop chars)
    ∧ (Within (fun i => start ≤ i ∧ i < stop)
        (bytesDecoder getter initialToLength decodeChar 1 noun bytes caller (some start)
          (some stop))
      ↔ ¬∃ index chars, start ≤ index ∧ index < stop ∧ stop < index + size
          ∧ index + size ≤ bytes.length ∧ Encoded scalar code bytes start index chars) := by
  rw [bytesDecoder_some caller hstart hstop]
  refine ⟨fun chars => h.chars hstop hstart (Nat.le_refl _), ?_⟩
  rw [h.within hstop hstart (Nat.le_refl _)]
  refine ⟨fun hall ⟨index, chars, hle, hlt, hcut, hroom, hencoded⟩ => ?_,
    fun hnone index chars hle hlt hencoded => ?_⟩
  · have hnext := hall index chars hle hlt hencoded
    exact (hwithin bytes start stop index hstop hle hlt).mp hnext ⟨hcut, hroom⟩
  · refine (hwithin bytes start stop index hstop hle hlt).mpr fun ⟨hcut, hroom⟩ => ?_
    exact hnone ⟨index, chars, hle, hlt, hcut, hroom, hencoded⟩

theorem Decodes.string
    (h : Decodes scalar code (decodeNext getter initialToLength decodeChar noun))
    (caller : String) {encoded : Bytevector} {string : List Nat}
    (hstring : ∀ char ∈ string, scalar char) (hvalues : values encoded = string.flatMap code) :
    (bytesDecoder getter initialToLength decodeChar 1 noun encoded caller none none).result
      = .ok string := by
  refine (h.chars (Nat.le_refl _) (Nat.zero_le _) (Nat.le_refl _)).mpr ⟨hstring, ?_⟩
  rw [← length_values encoded, slice_all]
  exact hvalues

theorem Decodes.codecDecoder {step : Nat} (hstep : step ≤ size) (hpos : 0 < step)
    (hget : ∀ bytes index, index + size ≤ bytes.length →
      (getter bytes index).reads = List.range' index size)
    (hwithin : ∀ bytes start stop index, stop ≤ bytes.length → start ≤ index → index < stop →
      (Within (fun i => start ≤ i ∧ i < stop)
          (decodeNext getter initialToLength decodeChar noun bytes stop index)
        ↔ ¬(stop < index + size ∧ index + size ≤ bytes.length)))
    (hstop : stop ≤ bytes.length) (index : Nat) :
    Within (fun i => index ≤ i ∧ i < stop)
        (unicodeCodecDecoder (nextCharLength getter initialToLength step) decodeChar bytes index
          stop)
      ↔ ¬(index + step ≤ stop ∧ stop < index + size ∧ index + size ≤ bytes.length) := by
  refine ⟨fun h ⟨hroom, hcut, hbytes⟩ => ?_, fun h => ?_⟩
  · unfold unicodeCodecDecoder nextCharLength at h
    rw [if_pos hroom] at h
    have hread := h.of_bind_left.of_bind_left (index + (size - 1)) (by
      rw [hget bytes index hbytes]
      refine mem_range'_1.mpr ?_
      omega)
    omega
  · have hnext : index + step ≤ stop → Within (fun i => index ≤ i ∧ i < stop)
        (decodeNext getter initialToLength decodeChar noun bytes stop index) := by
      intro hroom
      refine (hwithin bytes index stop index hstop (Nat.le_refl _) (by omega)).mpr fun hcut => ?_
      exact h ⟨hroom, hcut⟩
    exact unicodeCodecDecoder_within hnext

end

section

variable {bytes : Bytevector} {start stop : Nat}

theorem Gets.reads_range {size limit : Nat} (h : Gets size limit order getter) (bytes : Bytevector)
    (index : Nat) (hroom : index + size ≤ bytes.length) :
    (getter bytes index).reads = List.range' index size := by
  rw [h.reads, if_pos hroom]

theorem WideCodec.decode_spec (codec : WideCodec) (hstart : start ≤ stop)
    (hstop : stop ≤ bytes.length) :
    (∀ chars, (codec.decode bytes (some start) (some stop)).result = .ok chars
      ↔ Encoded codec.Accepts codec.code bytes start stop chars)
    ∧ (Within (fun i => start ≤ i ∧ i < stop) (codec.decode bytes (some start) (some stop))
      ↔ ¬CutUnit codec bytes start stop) := by
  cases codec with
  | utf16be =>
      exact (utf16_decodes gets_u16be _).range
        (fun _ _ _ _ => utf16Next_within gets_u16be _) _ hstart hstop
  | utf16le =>
      exact (utf16_decodes gets_u16le _).range
        (fun _ _ _ _ => utf16Next_within gets_u16le _) _ hstart hstop
  | utf32be =>
      exact (utf32_decodes gets_u32be _).range
        (fun _ _ _ _ _ => utf32Next_within gets_u32be _) _ hstart hstop
  | utf32le =>
      exact (utf32_decodes gets_u32le _).range
        (fun _ _ _ _ _ => utf32Next_within gets_u32le _) _ hstart hstop

theorem WideCodec.encode_spec (codec : WideCodec) (string : List Nat) :
    ((∃ encoded, codec.encode string none none = .ok encoded)
      ↔ (∀ char ∈ string, unicodeScalarValue char = true)
        ∧ (codec.unitSize = 2 ∨ string.length ≤ 1))
    ∧ ∀ encoded, codec.encode string none none = .ok encoded →
        values encoded = string.flatMap codec.code := by
  cases codec with
  | utf16be =>
      have h := (utf16_encodes (fun _ => rfl) sets_u16be "encode-utf16be-char!").string
        "string->utf16be" string
      exact ⟨h.1.trans (and_congr_right fun _ => or_congr_left (by decide)), h.2⟩
  | utf16le =>
      have h := (utf16_encodes (fun _ => rfl) sets_u16le "encode-utf16le-char!").string
        "string->utf16le" string
      exact ⟨h.1.trans (and_congr_right fun _ => or_congr_left (by decide)), h.2⟩
  | utf32be =>
      have h := (utf32_encodes (fun _ => rfl) sets_u32be "encode-utf32be-char!").string
        "string->utf32be" string
      exact ⟨h.1.trans (and_congr_right fun _ => or_congr_left (by decide)), h.2⟩
  | utf32le =>
      have h := (utf32_encodes (fun _ => rfl) sets_u32le "encode-utf32le-char!").string
        "string->utf32le" string
      exact ⟨h.1.trans (and_congr_right fun _ => or_congr_left (by decide)), h.2⟩

theorem WideCodec.decode_encoded (codec : WideCodec) {string : List Nat} {encoded : Bytevector}
    (hstring : ∀ char ∈ string, unicodeScalarValue char = true)
    (hvalues : values encoded = string.flatMap codec.code) :
    (codec.decode encoded none none).result = .ok string := by
  have hscalar : ∀ char ∈ string, ScalarValue char :=
    fun char hmem => (unicodeScalarValue_iff.mp (hstring char hmem)).1
  cases codec with
  | utf16be => exact (utf16_decodes gets_u16be _).string _ hscalar hvalues
  | utf16le => exact (utf16_decodes gets_u16le _).string _ hscalar hvalues
  | utf32be => exact (utf32_decodes gets_u32be _).string _ hstring hvalues
  | utf32le => exact (utf32_decodes gets_u32le _).string _ hstring hvalues

theorem WideCodec.Accepts.scalarValue {codec : WideCodec} {char : Nat} (h : codec.Accepts char) :
    ScalarValue char := by
  cases codec with
  | utf16be | utf16le => exact h
  | utf32be | utf32le => exact (unicodeScalarValue_iff.mp h).1

theorem Gets.utf16Decoder_within (h : Gets 2 0x10000 order getter) (hstop : stop ≤ bytes.length) (index : Nat) :
    Within (fun i => index ≤ i ∧ i < stop) (unicodeCodecDecoder
      (nextCharLength getter initialU16ToUtf16CharLength 2) (utf16CharDecoder getter) bytes index stop) := by
  refine (Decodes.codecDecoder (Nat.le_refl 2) (by decide) h.reads_range
    (fun _ _ _ _ => utf16Next_within h "") hstop index).mpr fun hcut => ?_
  omega

theorem WideCodec.decoder_within (codec : WideCodec) (hstop : stop ≤ bytes.length) (index : Nat) :
    Within (fun i => index ≤ i ∧ i < stop) (codec.decoder bytes index stop)
      ↔ ¬(codec.unitSize = 4 ∧ index + 2 ≤ stop ∧ stop < index + 4
          ∧ index + 4 ≤ bytes.length) := by
  have hfour : ∀ {p : Prop}, p ↔ 4 = 4 ∧ p := (and_iff_right rfl).symm
  cases codec with
  | utf16be =>
      exact iff_of_true (gets_u16be.utf16Decoder_within hstop index) fun hcut => absurd hcut.1 (by decide)
  | utf16le =>
      exact iff_of_true (gets_u16le.utf16Decoder_within hstop index) fun hcut => absurd hcut.1 (by decide)
  | utf32be =>
      exact (Decodes.codecDecoder (show 2 ≤ 4 by decide) (by decide) gets_u32be.reads_range
        (fun _ _ _ _ _ => utf32Next_within gets_u32be "") hstop index).trans (not_congr hfour)
  | utf32le =>
      exact (Decodes.codecDecoder (show 2 ≤ 4 by decide) (by decide) gets_u32le.reads_range
        (fun _ _ _ _ _ => utf32Next_within gets_u32le "") hstop index).trans (not_congr hfour)

/-- **The codecs for UTF-16 and UTF-32.** What the decoders accept is always an encoding of scalar
values. All of what the codecs should do is done exactly if the string has no scalar value that
looks like a surrogate, if for UTF-32 it has one character at most, and if the range does not end
within a unit that the bytevector has more of. The decoders of the codecs read behind the end
where that for UTF-32 finds two or three bytes of a unit. -/
theorem wide_exact_iff (codec : WideCodec) (hstart : start ≤ stop) (hstop : stop ≤ bytes.length)
    {string : List Nat} (hstring : ∀ char ∈ string, ScalarValue char) :
    (∀ chars, (codec.decode bytes (some start) (some stop)).result = .ok chars →
      Encoded ScalarValue codec.code bytes start stop chars)
    ∧ (WideExact codec string bytes start stop
      ↔ (∀ char ∈ string, ¬LooksLikeSurrogate char)
        ∧ (codec.unitSize = 2 ∨ string.length ≤ 1)
        ∧ ¬CutUnit codec bytes start stop)
    ∧ ∀ index, Within (fun i => index ≤ i ∧ i < stop) (codec.decoder bytes index stop)
      ↔ ¬(codec.unitSize = 4 ∧ index + 2 ≤ stop ∧ stop < index + 4
          ∧ index + 4 ≤ bytes.length) := by
  obtain ⟨hdecode, hwithin⟩ := codec.decode_spec hstart hstop
  obtain ⟨hencode, hvalues⟩ := codec.encode_spec string
  have hrejects : ∀ chars, (codec.decode bytes (some start) (some stop)).result = .ok chars →
      Encoded ScalarValue codec.code bytes start stop chars := by
    intro chars hchars
    obtain ⟨haccepts, hslice⟩ := (hdecode chars).mp hchars
    exact ⟨fun char hmem => (haccepts char hmem).scalarValue, hslice⟩
  refine ⟨hrejects, ⟨fun h => ?_, fun ⟨hlooks, hshort, hwhole⟩ => ?_⟩,
    fun index => codec.decoder_within hstop index⟩
  · obtain ⟨encoded, hencoded, -⟩ := h.roundTrips
    obtain ⟨hgood, hshort⟩ := hencode.mp ⟨encoded, hencoded⟩
    exact ⟨fun char hmem => (unicodeScalarValue_iff.mp (hgood char hmem)).2, hshort,
      hwithin.mp h.within⟩
  · have hgood : ∀ char ∈ string, unicodeScalarValue char = true :=
      fun char hmem => unicodeScalarValue_iff.mpr ⟨hstring char hmem, hlooks char hmem⟩
    obtain ⟨encoded, hencoded⟩ := hencode.mpr ⟨hgood, hshort⟩
    exact ⟨⟨encoded, hencoded, codec.decode_encoded hgood (hvalues encoded hencoded)⟩, hrejects,
      hwithin.mpr hwhole⟩

end

theorem wide_exact_iff_two : ¬WideExact .utf32be [0x41, 0x42] [] 0 0 := by
  have hstring : ∀ char ∈ [0x41, 0x42], ScalarValue char := by
    unfold ScalarValue
    decide
  intro h
  have hiff := (@wide_exact_iff [] 0 0 .utf32be (Nat.le_refl _) (Nat.le_refl _) _ hstring).2.1
  exact absurd (hiff.mp h).2.1 (by decide)

theorem utf32_string_rejected :
    ¬∀ (codec : WideCodec) (string : List Nat) (bytes : Bytevector) (start stop : Nat),
      start ≤ stop → stop ≤ bytes.length → (∀ char ∈ string, ScalarValue char) →
      WideExact codec string bytes start stop := by
  intro h
  have hexact := h .utf32be [0x41, 0x42] [] 0 0 (Nat.le_refl _) (Nat.le_refl _) (by
    unfold ScalarValue
    decide)
  obtain ⟨encoded, hencoded, -⟩ := hexact.roundTrips
  exact absurd ((WideCodec.encode_spec .utf32be [0x41, 0x42]).1.mp ⟨encoded, hencoded⟩).2
    (by decide)

end MitScheme.Codec
