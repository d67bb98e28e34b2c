import MitScheme.Lib.Results
import MitScheme.Lib.Slices
import MitScheme.Runtime.CharCodecs

/-!
# The loops between strings and bytevectors

What `string-encoder` and `bytes-decoder` do, when it is known what the procedures for one
character do: `code` says which bytes a character has, and `scalar` which characters there are.
-/

namespace MitScheme.Codec

open Reading List

/-- The bytes of a bytevector, as numbers. -/
def values (bytes : Bytevector) : List Nat := bytes.map UInt8.toNat

@[simp] theorem length_values (bytes : Bytevector) : (values bytes).length = bytes.length :=
  length_map ..

variable {b index : Nat}

theorem values_lt {bytes : Bytevector} (h : b ∈ values bytes) : b < 0x100 := by
  obtain ⟨byte, -, rfl⟩ := List.mem_map.mp h
  exact byte.toNat_lt

theorem bytevectorU8Ref_result {bytes : Bytevector} :
    (bytevectorU8Ref bytes index).result = .ok b ↔ (values bytes)[index]? = some b := by
  unfold bytevectorU8Ref values
  rw [List.getElem?_map]
  cases bytes[index]? with
  | none => simp
  | some byte => simp

theorem bytevectorU8Ref_within {p : Nat → Prop} {bytes : Bytevector}
    (h : p index) : Within p (bytevectorU8Ref bytes index) := by
  intro i hi
  unfold bytevectorU8Ref at hi
  split at hi
  · rw [mem_singleton.mp hi]
    exact h
  · cases hi

theorem bytevectorU8Set_eq {bytes : Bytevector} (hindex : index < bytes.length) (hb : b < 0x100) :
    ∃ bytes', bytevectorU8Set bytes index b = .ok bytes'
      ∧ values bytes' = splice (values bytes) index [b] := by
  refine ⟨bytes.set index (UInt8.ofNat b), ?_, ?_⟩
  · unfold bytevectorU8Set
    rw [if_pos hindex, if_pos hb]
  · have hlength : index < (values bytes).length := by rwa [length_values]
    rw [← set_eq_splice hlength, values, map_set]
    congr
    exact UInt8.toNat_ofNat_of_lt' hb

theorem bytevectorU8Set_next {bytes bytes' : Bytevector} {part : List Nat}
    (h : values bytes' = splice (values bytes) index part)
    (hroom : index + part.length < bytes.length) (hb : b < 0x100) :
    ∃ bytes'', bytevectorU8Set bytes' (index + part.length) b = .ok bytes''
      ∧ values bytes'' = splice (values bytes) index (part ++ [b]) := by
  have hfit : index + part.length ≤ (values bytes).length := by
    rw [length_values]
    omega
  have hlength : bytes'.length = bytes.length := by
    rw [← length_values bytes', h, length_splice hfit, length_values]
  have hnext : index + part.length < bytes'.length := by rwa [hlength]
  obtain ⟨bytes'', hset, hvalues⟩ := bytevectorU8Set_eq hnext hb
  refine ⟨bytes'', hset, ?_⟩
  rw [hvalues, h, splice_append hfit]

theorem set_then {α : Type} {bytes bytes' : Bytevector} {part code : List Nat} {i : Nat}
    {f : Bytevector → Except Error α} {result : Bytevector → α}
    (h : values bytes' = splice (values bytes) index part) (hi : i = index + part.length) (hroom : i < bytes.length)
    (hb : b < 0x100) (hf : ∀ bytes'', values bytes'' = splice (values bytes) index (part ++ [b]) →
      ∃ last, f bytes'' = .ok (result last) ∧ values last = splice (values bytes) index code) :
    ∃ last, (bytevectorU8Set bytes' i b >>= f) = .ok (result last)
      ∧ values last = splice (values bytes) index code := by
  subst hi
  obtain ⟨bytes'', hset, hvalues⟩ := bytevectorU8Set_next h hroom hb
  obtain ⟨last, hlast, hcode⟩ := hf bytes'' hvalues
  exact ⟨last, bind_eq_ok.mpr ⟨bytes'', hset, hlast⟩, hcode⟩

/-! ## Encoding -/

/-- What the procedures of an encoder do with a character. Those that do not return the index
after the character return the unspecific object. -/
structure Encodes (scalar : Nat → Prop) (code : Nat → List Nat) (indexes : Bool)
    (charByteLength : Nat → Except Error Nat)
    (encodeChar : Bytevector → Nat → Nat → Except Error (Bytevector × Option Nat)) : Prop where
  byteLength : ∀ char, scalar char → charByteLength char = .ok (code char).length
  rejects : ∀ char, ¬scalar char → ∃ e, charByteLength char = .error e
  encode : ∀ char bytes index, scalar char → index + (code char).length ≤ bytes.length →
    ∃ bytes', encodeChar bytes index char
        = .ok (bytes', if indexes then some (index + (code char).length) else none)
      ∧ values bytes' = splice (values bytes) index (code char)

section

variable {scalar : Nat → Prop} {code : Nat → List Nat} {indexes : Bool}
  {charByteLength : Nat → Except Error Nat}
  {encodeChar : Bytevector → Nat → Nat → Except Error (Bytevector × Option Nat)}

theorem Encodes.count (h : Encodes scalar code indexes charByteLength encodeChar) :
    ∀ {chars : List Nat} {nBytes : Nat}, (∀ char ∈ chars, scalar char) →
      countBytes charByteLength chars nBytes = .ok (nBytes + (chars.flatMap code).length) := by
  intro chars
  induction chars with
  | nil => exact fun _ => rfl
  | cons char chars ih =>
      intro nBytes hchars
      obtain ⟨hchar, hrest⟩ := forall_mem_cons.mp hchars
      rw [countBytes, h.byteLength char hchar]
      change countBytes charByteLength chars _ = _
      rw [ih hrest, flatMap_cons, length_append, Nat.add_assoc]

theorem Encodes.count_scalar (h : Encodes scalar code indexes charByteLength encodeChar) :
    ∀ {chars : List Nat} {nBytes n : Nat}, countBytes charByteLength chars nBytes = .ok n →
      ∀ char ∈ chars, scalar char := by
  intro chars
  induction chars with
  | nil => exact fun _ _ hmem => by cases hmem
  | cons char chars ih =>
      intro nBytes n hn
      have hchar : scalar char := by
        by_contra hnot
        obtain ⟨e, he⟩ := h.rejects char hnot
        rw [countBytes, he] at hn
        cases hn
      rw [countBytes, h.byteLength char hchar] at hn
      exact forall_mem_cons.mpr ⟨hchar, ih hn⟩

theorem Encodes.chars (h : Encodes scalar code indexes charByteLength encodeChar) :
    ∀ {chars : List Nat} {bytes : Bytevector} {index : Nat}, (∀ char ∈ chars, scalar char) →
      index + (chars.flatMap code).length ≤ bytes.length → (indexes = true ∨ chars.length ≤ 1) →
      ∃ bytes', encodeChars encodeChar chars bytes (some index) = .ok bytes'
        ∧ values bytes' = splice (values bytes) index (chars.flatMap code) := by
  intro chars
  induction chars with
  | nil =>
      intro bytes index _ _ _
      exact ⟨bytes, rfl, (splice_nil _ _).symm⟩
  | cons char chars ih =>
      intro bytes index hchars hroom hindexes
      obtain ⟨hchar, hrest⟩ := forall_mem_cons.mp hchars
      rw [flatMap_cons, length_append] at hroom
      obtain ⟨bytes₁, hencode, hvalues⟩ := h.encode char bytes index hchar (by omega)
      have hlength : bytes₁.length = bytes.length := by
        rw [← length_values bytes₁, hvalues, length_splice, length_values]
        rw [length_values]
        omega
      rw [encodeChars, hencode]
      cases chars with
      | nil =>
          refine ⟨bytes₁, rfl, ?_⟩
          rw [flatMap_singleton]
          exact hvalues
      | cons next rest =>
          have hreturns : indexes = true := by
            rcases hindexes with hindexes | hlong
            · exact hindexes
            · rw [length_cons, length_cons] at hlong
              omega
          rw [if_pos hreturns]
          obtain ⟨bytes₂, hencode₂, hvalues₂⟩ :=
            @ih bytes₁ (index + (code char).length) hrest (by omega) (.inl hreturns)
          refine ⟨bytes₂, hencode₂, ?_⟩
          rw [hvalues₂, hvalues, splice_append, ← flatMap_cons]
          rw [length_values]
          omega

theorem Encodes.chars_error (h : Encodes scalar code false charByteLength encodeChar)
    {chars : List Nat} (hchars : ∀ char ∈ chars, scalar char) (hlong : 1 < chars.length)
    {bytes : Bytevector} {index : Nat} (hroom : index + (chars.flatMap code).length ≤ bytes.length) :
    encodeChars encodeChar chars bytes (some index) = .error .unspecificIndex := by
  cases chars with
  | nil => cases hlong
  | cons char chars =>
      cases chars with
      | nil => exact absurd hlong (Nat.lt_irrefl 1)
      | cons next rest =>
          rw [flatMap_cons, length_append] at hroom
          obtain ⟨bytes', hencode, -⟩ :=
            h.encode char bytes index (hchars char mem_cons_self) (by omega)
          rw [encodeChars, hencode]
          rfl

/-- **Encoding.** A string is encoded if each of its characters has a code, and if the encoder
says where to go on or there is no need to. -/
theorem Encodes.string (h : Encodes scalar code indexes charByteLength encodeChar)
    (caller : String) (string : List Nat) :
    ((∃ bytes, stringEncoder charByteLength encodeChar caller string none none = .ok bytes)
      ↔ (∀ char ∈ string, scalar char) ∧ (indexes = true ∨ string.length ≤ 1))
    ∧ ∀ bytes, stringEncoder charByteLength encodeChar caller string none none = .ok bytes →
        values bytes = string.flatMap code := by
  have hall : substring string 0 string.length = string := slice_all string
  have heq : stringEncoder charByteLength encodeChar caller string none none
      = (countBytes charByteLength string 0).bind fun nBytes =>
          encodeChars encodeChar string (allocateBytevector nBytes) (some 0) := by
    change (countBytes charByteLength (substring string 0 string.length) 0).bind _ = _
    rw [hall]
  rw [heq]
  by_cases hscalar : ∀ char ∈ string, scalar char
  · rw [h.count hscalar, Nat.zero_add]
    change ((∃ bytes, encodeChars encodeChar string _ (some 0) = .ok bytes) ↔ _)
      ∧ ∀ bytes, encodeChars encodeChar string _ (some 0) = .ok bytes → _
    have hroom : 0 + (string.flatMap code).length
        ≤ (allocateBytevector (string.flatMap code).length).length := by
      rw [allocateBytevector, length_replicate]
      omega
    by_cases hindexes : indexes = true ∨ string.length ≤ 1
    · obtain ⟨bytes, hbytes, hvalues⟩ := h.chars hscalar hroom hindexes
      have hall' : (string.flatMap code).length
          = (values (allocateBytevector (string.flatMap code).length)).length := by
        rw [length_values, allocateBytevector, length_replicate]
      rw [splice_all hall'] at hvalues
      rw [hbytes]
      refine ⟨⟨fun _ => ⟨hscalar, hindexes⟩, fun _ => ⟨bytes, rfl⟩⟩, fun bytes' heq' => ?_⟩
      cases heq'
      exact hvalues
    · obtain ⟨hnot, hlong⟩ := not_or.mp hindexes
      have hfalse := Bool.eq_false_iff.mpr hnot
      subst hfalse
      rw [h.chars_error hscalar (by omega) hroom]
      refine ⟨⟨fun ⟨_, hbytes⟩ => (nomatch hbytes), fun ⟨_, hshort⟩ => ?_⟩,
        fun _ hbytes => (nomatch hbytes)⟩
      exact absurd hshort hindexes
  · cases hcount : countBytes charByteLength string 0 with
    | error e =>
        refine ⟨⟨fun ⟨_, hbytes⟩ => (nomatch hbytes), fun ⟨hall', _⟩ => ?_⟩,
          fun _ hbytes => (nomatch hbytes)⟩
        exact absurd hall' hscalar
    | ok n => exact absurd (h.count_scalar hcount) hscalar

end

/-! ## Decoding -/

/-- What one turn of a decoder gives: the character whose code comes next, and the index after
it. -/
structure Decodes (scalar : Nat → Prop) (code : Nat → List Nat)
    (next : Bytevector → Nat → Nat → Reading Error (Nat × Nat)) : Prop where
  code_ne : ∀ char, scalar char → code char ≠ []
  decode : ∀ bytes stop index char index', stop ≤ bytes.length → index < stop →
    ((next bytes stop index).result = .ok (char, index')
      ↔ scalar char ∧ index' = index + (code char).length
        ∧ code char <+: slice (values bytes) index stop)

/-- The bytes from one index up to another are the codes of some characters. -/
def Encoded (scalar : Nat → Prop) (code : Nat → List Nat) (bytes : Bytevector) (start stop : Nat)
    (chars : List Nat) : Prop :=
  (∀ char ∈ chars, scalar char) ∧ slice (values bytes) start stop = chars.flatMap code

section

variable {scalar : Nat → Prop} {code : Nat → List Nat}
  {getter : Bytevector → Nat → Reading Error Nat} {initialToLength : Nat → Except Error Nat}
  {decodeChar : Bytevector → Nat → Reading Error Nat} {noun : String}
  {bytes : Bytevector} {stop : Nat}

theorem encoded_cons_iff (hstop : stop ≤ bytes.length) {index : Nat} (hindex : index ≤ stop)
    {char : Nat} {chars : List Nat} :
    Encoded scalar code bytes index stop (char :: chars)
      ↔ scalar char ∧ code char <+: slice (values bytes) index stop
        ∧ Encoded scalar code bytes (index + (code char).length) stop chars := by
  have hlength : stop ≤ (values bytes).length := by rwa [length_values]
  rw [prefix_slice_iff hlength hindex]
  unfold Encoded
  rw [forall_mem_cons, flatMap_cons]
  refine ⟨fun ⟨⟨hchar, hchars⟩, heq⟩ => ?_, fun ⟨hchar, ⟨hle, hcode⟩, hchars, heq⟩ => ?_⟩
  · have hle : index + (code char).length ≤ stop := by
      have hcount := congrArg List.length heq
      rw [length_slice hlength, length_append] at hcount
      omega
    rw [← slice_append _ (Nat.le_add_right index (code char).length) hle] at heq
    obtain ⟨hcode, hrest⟩ := append_inj heq (by
      rw [length_slice (by omega)]
      omega)
    exact ⟨hchar, ⟨hle, hcode⟩, hchars, hrest⟩
  · rw [← slice_append _ (Nat.le_add_right index (code char).length) hle, hcode, heq]
    exact ⟨⟨hchar, hchars⟩, rfl⟩

theorem encoded_nil_iff (hstop : stop ≤ bytes.length) {index : Nat} (hindex : index ≤ stop) :
    Encoded scalar code bytes index stop [] ↔ index = stop := by
  have hlength : stop ≤ (values bytes).length := by rwa [length_values]
  unfold Encoded
  rw [flatMap_nil]
  refine ⟨fun ⟨_, hnil⟩ => ?_, fun heq => ⟨fun _ hmem => (nomatch hmem), ?_⟩⟩
  · have hcount := congrArg List.length hnil
    rw [length_slice hlength, length_nil] at hcount
    omega
  · rw [heq, slice_self]

variable {step : Nat}

theorem bytesDecoder_some {start : Nat} (caller : String) (hstart : start ≤ stop)
    (hstop : stop ≤ bytes.length) :
    bytesDecoder getter initialToLength decodeChar step noun bytes caller (some start) (some stop)
      = decodeChars getter initialToLength decodeChar step noun bytes stop (stop - start) start := by
  have hend : fixEndIndex (some stop) bytes.length caller = .ok stop := if_pos hstop
  have hbegin : fixStartIndex (some start) stop caller = .ok start := if_pos hstart
  unfold bytesDecoder
  rw [hend]
  change (lift (fixStartIndex (some start) stop caller) >>= _) = _
  rw [hbegin]
  rfl

theorem Decodes.of_units (hne : ∀ char, scalar char → code char ≠ [])
    (hfirst : ∀ bytes index char, scalar char → index + (code char).length ≤ bytes.length →
      slice (values bytes) index (index + (code char).length) = code char →
      ∃ unit, (getter bytes index).result = .ok unit
        ∧ initialToLength unit = .ok (code char).length)
    (hchar : ∀ bytes index unit n char, (getter bytes index).result = .ok unit →
      initialToLength unit = .ok n → index + n ≤ bytes.length →
      ((decodeChar bytes index).result = .ok char
        ↔ scalar char ∧ code char = slice (values bytes) index (index + n))) :
    Decodes scalar code (decodeNext getter initialToLength decodeChar noun) where
  code_ne := hne
  decode bytes stop index char index' hstop hindex := by
    have hlength : stop ≤ (values bytes).length := by rwa [length_values]
    rw [prefix_slice_iff hlength (by omega)]
    refine ⟨fun h => ?_, fun ⟨hscalar, hindex', hle, hcode⟩ => ?_⟩
    · obtain ⟨unit, hunit, h⟩ := result_bind_eq_ok.mp h
      obtain ⟨n, hn, h⟩ := result_bind_eq_ok.mp h
      dsimp only at h
      split at h
      · rename_i hle
        obtain ⟨char', hresult, hpair⟩ := result_bind_eq_ok.mp h
        cases hpair
        obtain ⟨hscalar, hcode⟩ := (hchar bytes index unit n char hunit hn (by omega)).mp hresult
        have hcount : (code char).length = n := by
          rw [hcode, length_slice (by omega)]
          omega
        rw [hcount]
        exact ⟨hscalar, rfl, hle, hcode.symm⟩
      · cases h
    · obtain ⟨unit, hunit, hn⟩ := hfirst bytes index char hscalar (by omega) hcode
      refine result_bind_eq_ok.mpr ⟨unit, hunit, result_bind_eq_ok.mpr ⟨_, hn, ?_⟩⟩
      rw [if_pos hle]
      refine result_bind_eq_ok.mpr ⟨char, ?_, ?_⟩
      · exact (hchar bytes index unit _ char hunit hn (by omega)).mpr ⟨hscalar, hcode.symm⟩
      · rw [hindex', result_pure]

theorem unicodeCodecDecoder_result {bs be char bs' : Nat} :
    (unicodeCodecDecoder (nextCharLength getter initialToLength step) decodeChar bytes bs be).result
        = .ok (some char, bs')
      ↔ bs + step ≤ be
        ∧ (decodeNext getter initialToLength decodeChar noun bytes be bs).result
          = .ok (char, bs') := by
  unfold unicodeCodecDecoder nextCharLength decodeNext
  by_cases hstep : bs + step ≤ be
  · rw [if_pos hstep]
    simp only [result_bind_eq_ok, result_pure, Except.ok.injEq, hstep, true_and]
    refine ⟨fun ⟨length, ⟨unit, hunit, n, hn, hlength⟩, h⟩ => ?_, fun ⟨unit, hunit, n, hn, h⟩ => ?_⟩
    · subst hlength
      refine ⟨unit, hunit, n, hn, ?_⟩
      dsimp only at h
      split at h
      · rename_i hle
        rw [if_pos hle]
        obtain ⟨char', hchar, hpair⟩ := result_bind_eq_ok.mp h
        cases hpair
        exact result_bind_eq_ok.mpr ⟨char, hchar, rfl⟩
      · cases h
    · refine ⟨some n, ⟨unit, hunit, n, hn, rfl⟩, ?_⟩
      dsimp only
      split at h
      · rename_i hle
        rw [if_pos hle]
        obtain ⟨char', hchar, hpair⟩ := result_bind_eq_ok.mp h
        cases hpair
        exact result_bind_eq_ok.mpr ⟨char, hchar, rfl⟩
      · cases h
  · rw [if_neg hstep]
    refine ⟨fun h => ?_, fun h => absurd h.1 hstep⟩
    obtain ⟨length, hlength, h⟩ := result_bind_eq_ok.mp h
    cases hlength
    cases h

theorem unicodeCodecDecoder_within {p : Nat → Prop} {bs be : Nat} (h : bs + step ≤ be →
      Within p (decodeNext getter initialToLength decodeChar noun bytes be bs)) :
    Within p
      (unicodeCodecDecoder (nextCharLength getter initialToLength step) decodeChar bytes bs be) := by
  unfold unicodeCodecDecoder nextCharLength
  by_cases hstep : bs + step ≤ be
  · rw [if_pos hstep]
    have hnext := h hstep
    refine Within.bind (hnext.of_bind_left.bind fun unit _ => ?_) fun length hlength => ?_
    · exact Within.bind (fun _ hi => (nomatch hi)) fun _ _ => within_pure _
    · obtain ⟨unit, hunit, hlength⟩ := result_bind_eq_ok.mp hlength
      obtain ⟨n, hn, hlength⟩ := result_bind_eq_ok.mp hlength
      cases hlength
      have hrest := (hnext.of_bind_right hunit).of_bind_right hn
      dsimp only at hrest ⊢
      split at hrest
      · rename_i hle
        rw [if_pos hle]
        exact hrest.of_bind_left.bind fun _ _ => within_pure _
      · rename_i hle
        rw [if_neg hle]
        exact within_pure _
  · rw [if_neg hstep]
    exact (within_pure _).bind fun length hlength => by
      cases hlength
      exact within_pure _

variable (h : Decodes scalar code (decodeNext getter initialToLength decodeChar noun))

include h

/-- **Decoding.** The loop gives the characters whose codes it finds, and gives nothing if it finds
anything else. -/
theorem Decodes.chars (hstop : stop ≤ bytes.length) :
    ∀ {turns index : Nat} {chars : List Nat}, index ≤ stop → stop - index ≤ turns →
      ((decodeChars getter initialToLength decodeChar 1 noun bytes stop turns index).result
          = .ok chars
        ↔ Encoded scalar code bytes index stop chars) := by
  intro turns
  induction turns with
  | zero =>
      intro index chars hindex hturns
      have heq : index = stop := by omega
      rw [decodeChars]
      cases chars with
      | nil => rw [encoded_nil_iff hstop hindex]; simp [heq]
      | cons char chars =>
          rw [encoded_cons_iff hstop hindex]
          refine ⟨fun hnil => (nomatch hnil), fun ⟨hchar, hprefix, _⟩ => ?_⟩
          rw [heq, slice_self] at hprefix
          exact absurd (prefix_nil.mp hprefix) (h.code_ne char hchar)
  | succ turns ih =>
      intro index chars hindex hturns
      rw [decodeChars]
      by_cases hmore : index + 1 ≤ stop
      · rw [if_pos hmore, result_bind_eq_ok]
        cases chars with
        | nil =>
            rw [encoded_nil_iff hstop hindex]
            refine ⟨fun ⟨_, _, hrest⟩ => ?_, fun heq => by omega⟩
            obtain ⟨_, _, hcons⟩ := result_bind_eq_ok.mp hrest
            cases hcons
        | cons char chars =>
            rw [encoded_cons_iff hstop hindex]
            refine ⟨fun ⟨⟨char', index'⟩, hnext, hrest⟩ => ?_, fun ⟨hchar, hprefix, hchars⟩ => ?_⟩
            · obtain ⟨chars', hchars, hcons⟩ := result_bind_eq_ok.mp hrest
              cases hcons
              obtain ⟨hchar, rfl, hprefix⟩ := (h.decode _ _ _ _ _ hstop hmore).mp hnext
              have hle := hprefix.length_le
              rw [length_slice (by rwa [length_values])] at hle
              have hpos := length_pos_iff.mpr (h.code_ne char hchar)
              exact ⟨hchar, hprefix, (ih (by omega) (by omega)).mp hchars⟩
            · have hle := hprefix.length_le
              rw [length_slice (by rwa [length_values])] at hle
              have hpos := length_pos_iff.mpr (h.code_ne char hchar)
              refine ⟨(char, _), (h.decode _ _ _ _ _ hstop hmore).mpr ⟨hchar, rfl, hprefix⟩, ?_⟩
              refine result_bind_eq_ok.mpr ⟨chars, ?_, rfl⟩
              exact (ih (by omega) (by omega)).mpr hchars
      · have heq : index = stop := by omega
        rw [if_neg hmore, if_neg (by omega)]
        cases chars with
        | nil => rw [encoded_nil_iff hstop hindex]; simp [heq]
        | cons char chars =>
            rw [encoded_cons_iff hstop hindex]
            refine ⟨fun hnil => (nomatch hnil), fun ⟨hchar, hprefix, _⟩ => ?_⟩
            rw [heq, slice_self] at hprefix
            exact absurd (prefix_nil.mp hprefix) (h.code_ne char hchar)

theorem Decodes.within {p : Nat → Prop} (hstop : stop ≤ bytes.length) :
    ∀ {turns start : Nat}, start ≤ stop → stop - start ≤ turns →
      (Within p (decodeChars getter initialToLength decodeChar 1 noun bytes stop turns start)
        ↔ ∀ index chars, start ≤ index → index < stop →
            Encoded scalar code bytes start index chars →
            Within p (decodeNext getter initialToLength decodeChar noun bytes stop index)) := by
  intro turns
  induction turns with
  | zero =>
      intro start hstart hturns
      exact ⟨fun _ index _ hle hlt _ => by omega, fun _ => within_pure _⟩
  | succ turns ih =>
      intro start hstart hturns
      rw [decodeChars]
      by_cases hmore : start + 1 ≤ stop
      · rw [if_pos hmore]
        refine ⟨fun hall index chars hle hlt hencoded => ?_, fun hall => ?_⟩
        · cases chars with
          | nil =>
              rw [encoded_nil_iff (by omega) hle] at hencoded
              subst hencoded
              exact hall.of_bind_left
          | cons char chars =>
              obtain ⟨hchar, hprefix, hrest⟩ := (encoded_cons_iff (by omega) hle).mp hencoded
              have hwhole : code char <+: slice (values bytes) start stop := by
                rw [← slice_append _ hle (Nat.le_of_lt hlt)]
                exact hprefix.trans (prefix_append _ _)
              have hle' := hprefix.length_le
              rw [length_slice (by rw [length_values]; omega)] at hle'
              have hpos := length_pos_iff.mpr (h.code_ne char hchar)
              have hnext := (h.decode _ _ _ _ _ hstop hmore).mpr ⟨hchar, rfl, hwhole⟩
              have hloop := (hall.of_bind_right hnext).of_bind_left
              exact (ih (by omega) (by omega)).mp hloop index chars (by omega) hlt hrest
        · have hnil : Encoded scalar code bytes start start [] :=
            (encoded_nil_iff (by omega) (Nat.le_refl _)).mpr rfl
          refine (hall start [] (Nat.le_refl _) hmore hnil).bind fun ⟨char, index'⟩ hnext => ?_
          obtain ⟨hchar, rfl, hprefix⟩ := (h.decode _ _ _ _ _ hstop hmore).mp hnext
          have hle' := hprefix.length_le
          rw [length_slice (by rwa [length_values])] at hle'
          have hpos := length_pos_iff.mpr (h.code_ne char hchar)
          refine Within.bind ?_ fun _ _ => within_pure _
          refine (ih (by omega) (by omega)).mpr fun index chars hle hlt hencoded => ?_
          refine hall index (char :: chars) (by omega) hlt ?_
          refine (encoded_cons_iff (by omega) (by omega)).mpr ⟨hchar, ?_, hencoded⟩
          have hlength : index ≤ (values bytes).length := by
            rw [length_values]
            omega
          rw [prefix_slice_iff hlength (by omega)]
          rw [prefix_slice_iff (by rwa [length_values]) hstart] at hprefix
          exact ⟨hle, hprefix.2⟩
      · rw [if_neg hmore, if_neg (by omega)]
        exact ⟨fun _ index _ hle hlt _ => by omega, fun _ => within_pure _⟩

end

end MitScheme.Codec
