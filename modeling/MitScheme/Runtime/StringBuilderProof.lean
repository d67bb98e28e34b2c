import MitScheme.Runtime.StringBuilder
import MitScheme.Runtime.NormalizationQuickCheck

/-!
# What the builder builds

The slices of the buffer never overlap what is still to be written into it, so the strings that are kept, in
order, with the slice of the buffer that is not kept yet, are always the concatenation of what was appended.
-/

namespace MitScheme.StringBuilder

open Option

open Normalization (Str Tables immutableUstring)

namespace Object

variable {o o' : Object}

/-- Some characters of an object. -/
def part (o : Object) (start n : Nat) : List Nat := (List.range' start n).map o.cp

/-- The bytes of an object, which may have been found in memory. -/
structure Sound (o : Object) : Prop where
  bytes : ∀ b ∈ o.bytes, b < 0x100
  size : width o.cpSize * o.length ≤ o.bytes.length

theorem Valid.sound (h : o.Valid) : o.Sound := ⟨h.bytes, h.size⟩

@[simp] theorem part_zero (start : Nat) : o.part start 0 = [] := rfl

@[simp] theorem part_length (start n : Nat) : (o.part start n).length = n := by
  rw [part, List.length_map, List.length_range']

theorem chars_eq_part (o : Object) : o.chars = o.part 0 o.length := by
  rw [chars, part, List.range_eq_range']

theorem part_append (o : Object) (start n m : Nat) : o.part start n ++ o.part (start + n) m = o.part start (n + m) := by
  rw [part, part, part, ← List.map_append, List.range'_append_1]

theorem part_succ (o : Object) (start n : Nat) : o.part start (n + 1) = o.part start n ++ [o.cp (start + n)] := by
  rw [← part_append]
  rfl

theorem part_congr {start n : Nat} (h : ∀ k, start ≤ k → k < start + n → o'.cp k = o.cp k) :
    o'.part start n = o.part start n := by
  refine List.map_congr_left fun k hk => ?_
  rw [List.mem_range'_1] at hk
  exact h k hk.1 hk.2

theorem slice_part (o : Object) {start n i j : Nat} (hij : i ≤ j) (hj : j ≤ n) :
    slice (o.part start n) i j = o.part (start + i) (j - i) := by
  have hsplit : o.part start n = o.part start i ++ (o.part (start + i) (j - i) ++ o.part (start + j) (n - j)) := by
    rw [show start + j = start + i + (j - i) by omega, part_append, part_append]
    congr 1
    omega
  rw [slice, hsplit, List.drop_left' (part_length _ _), List.take_left' (part_length _ _)]

theorem Sound.within (h : o.Sound) {k : Nat} (hk : k ≤ o.length) : width o.cpSize * k ≤ o.bytes.length :=
  Nat.le_trans (Nat.mul_le_mul_left _ hk) h.size

end Object

open Object

variable {heap heap' : Heap} {r : Ref}

/-! ## Texts of strings -/

namespace Ref

def address : Ref → Nat
  | .object address => address
  | .slice address _ _ => address

end Ref

namespace Heap

/-- The characters of a string. -/
def text (heap : Heap) (r : Ref) : List Nat :=
  match heap.unpackSlice r with
  | some (o, start, stop) => o.part start (stop - start)
  | none => []

/-- A string lies in an object. -/
inductive Sound (heap : Heap) : Ref → Prop
  | object {address : Nat} {o : Object} (place : heap.objects[address]? = some o) (sound : o.Sound) :
      Sound heap (.object address)
  | slice {address start length : Nat} {o : Object} (place : heap.objects[address]? = some o) (sound : o.Sound)
      (within : start + length ≤ o.length) : Sound heap (.slice address start length)

theorem text_object {address : Nat} {o : Object} (h : heap.objects[address]? = some o) :
    heap.text (.object address) = o.part 0 o.length := by
  simp only [text, unpackSlice, h, map_some, Nat.sub_zero]

theorem text_slice {address start length : Nat} {o : Object} (h : heap.objects[address]? = some o) :
    heap.text (.slice address start length) = o.part start length := by
  simp only [text, unpackSlice, h, map_some, Nat.add_sub_cancel_left]

theorem Sound.unpack (h : heap.Sound r) : ∃ o start, heap.unpackSlice r = some (o, start, start + (heap.text r).length)
    ∧ heap.objects[r.address]? = some o ∧ o.Sound ∧ start + (heap.text r).length ≤ o.length
    ∧ heap.text r = o.part start (heap.text r).length
    ∧ heap.stringLength r = some (heap.text r).length := by
  cases h with
  | @object address o place sound =>
      rw [text_object place, part_length]
      refine ⟨o, 0, ?_, place, sound, by omega, rfl, ?_⟩
      · simp only [unpackSlice, place, map_some, Nat.zero_add]
      · simp only [stringLength, place, map_some]
  | @slice address start length o place sound within =>
      rw [text_slice place, part_length]
      refine ⟨o, start, ?_, place, sound, within, rfl, rfl⟩
      simp only [unpackSlice, place, map_some]

theorem unpackSlice_congr (h : heap'.objects[r.address]? = heap.objects[r.address]?) :
    heap'.unpackSlice r = heap.unpackSlice r := by
  cases r with
  | object address => rw [unpackSlice, unpackSlice, show heap'.objects[address]? = heap.objects[address]? from h]
  | slice address start length =>
      rw [unpackSlice, unpackSlice, show heap'.objects[address]? = heap.objects[address]? from h]

theorem text_congr (h : heap'.objects[r.address]? = heap.objects[r.address]?) : heap'.text r = heap.text r := by
  rw [text, text, unpackSlice_congr h]

theorem Sound.congr (hsound : heap.Sound r) (h : heap'.objects[r.address]? = heap.objects[r.address]?) :
    heap'.Sound r := by
  cases hsound with
  | object place sound => exact .object (h.trans place) sound
  | slice place sound within => exact .slice (h.trans place) sound within

theorem Sound.lt (h : heap.Sound r) : r.address < heap.objects.length := by
  cases h with
  | object place _ | slice place _ _ => exact (List.getElem?_eq_some_iff.mp place).1

theorem place_objects (heap : Heap) (o : Object) {address : Nat} (h : address < heap.objects.length) :
    (heap.place o).2.objects[address]? = heap.objects[address]? := List.getElem?_append_left h

@[simp] theorem place_self (heap : Heap) (o : Object) :
    (heap.place o).2.objects[(heap.place o).1]? = some o := by
  rw [place, List.getElem?_append_right (Nat.le_refl _), Nat.sub_self]
  rfl

theorem takeBytes_lt (heap : Heap) (nBytes : Nat) : ∀ b ∈ heap.takeBytes nBytes, b < 0x100 := by
  intro b hb
  obtain ⟨i, -, rfl⟩ := List.mem_map.mp hb
  exact Nat.mod_lt _ (by decide)

theorem le_takeBytes (heap : Heap) (nBytes : Nat) : nBytes ≤ (heap.takeBytes nBytes).length := by
  rw [takeBytes, List.length_map, List.length_range]
  omega

theorem mutableUstringAllocate_sound (heap : Heap) (n : Nat) : (heap.mutableUstringAllocate n).Sound :=
  ⟨heap.takeBytes_lt _, heap.le_takeBytes _⟩

theorem legacyStringAllocate_sound (heap : Heap) (n : Nat) : (heap.legacyStringAllocate n).Sound := by
  refine ⟨heap.takeBytes_lt _, ?_⟩
  have := heap.le_takeBytes (n + 1)
  change 1 * n ≤ (heap.takeBytes (n + 1)).length
  omega

/-- The kind of string that has room for a greatest code point. -/
def immutableKind (maxCp : Nat) : Kind :=
  if maxCp < 0x100 then .unicode 1 true (maxCp < 0xC0)
  else if maxCp < 0x10000 then .unicode 2 (maxCp < 0x300) false
  else .unicode 3 false false

theorem immutableUstringAllocate_sound (heap : Heap) (n maxCp : Nat) : ∃ o,
    heap.immutableUstringAllocate n maxCp = some o ∧ o.kind = immutableKind maxCp ∧ o.length = n ∧ o.Sound := by
  rw [immutableUstringAllocate, immutableKind]
  split
  · have hlength := heap.le_takeBytes (n + 1)
    obtain ⟨o, hset, hstored⟩ := @byteSet_stored
      { heap.ustringAllocate (n + 1) n 1 with kind := .unicode 1 true (maxCp < 0xC0) } n 0 hlength (by decide)
    refine ⟨o, hset, hstored.kind, hstored.length, hstored.bytes (heap.takeBytes_lt _), ?_⟩
    rw [cpSize_of_kind hstored.kind, hstored.length, hstored.size]
    change 1 * n ≤ _
    change _ ≤ (heap.takeBytes (n + 1)).length
    omega
  · split
    · exact ⟨_, rfl, rfl, rfl, heap.takeBytes_lt _, heap.le_takeBytes _⟩
    · exact ⟨_, rfl, rfl, rfl, heap.takeBytes_lt _, heap.le_takeBytes _⟩

end Heap

/-! ## Storing -/

theorem Copied.part {source target target' : Object} {start n at' : Nat}
    (h : Copied source start n target at' target')
    (hfits : ∀ c ∈ source.part start n, c < 0x100 ^ width target.cpSize) :
    target'.part 0 (at' + n) = target.part 0 at' ++ source.part start n := by
  have hbefore : target'.part 0 at' = target.part 0 at' :=
    part_congr fun k _ hk => h.outside k (.inl (by omega))
  rw [← part_append, hbefore, Nat.zero_add]
  refine congrArg _ (List.ext_getElem (by simp) fun k hk _ => ?_)
  rw [part_length] at hk
  have hmem : source.cp (start + k) ∈ source.part start n :=
    List.mem_map.mpr ⟨start + k, List.mem_range'_1.mpr (by omega), rfl⟩
  simp only [Object.part, List.getElem_map, List.getElem_range', Nat.one_mul]
  rw [h.inside k hk, Nat.mod_eq_of_lt (hfits _ hmem)]

theorem fillResult_fills {strings : List Ref} : ∀ {i : Nat} {result : Object},
    (∀ r ∈ strings, heap.Sound r) → result.Sound →
    i + (strings.flatMap heap.text).length ≤ result.length →
    (∀ c ∈ strings.flatMap heap.text, c < 0x100 ^ width result.cpSize) →
    ∃ result', fillResult heap strings i result = some result' ∧ result'.kind = result.kind
      ∧ result'.length = result.length ∧ result'.Sound
      ∧ result'.part 0 (i + (strings.flatMap heap.text).length) = result.part 0 i ++ strings.flatMap heap.text := by
  induction strings with
  | nil =>
      intro i result _ hresult _ _
      exact ⟨result, rfl, rfl, rfl, hresult, by simp⟩
  | cons r strings ih =>
      intro i result hstrings hresult hroom hfits
      obtain ⟨o, start, hunpack, -, hsound, hwithin, htext, hlength⟩ := (hstrings r List.mem_cons_self).unpack
      rw [List.flatMap_cons, List.length_append] at hroom
      obtain ⟨result1, hcopy, hcopied⟩ := @generalCopy_copied o result hsound.bytes start (heap.text r).length i
        (hsound.within hwithin) (hresult.within (by omega))
      have hsize := cpSize_of_kind hcopied.kind
      have hresult1 : result1.Sound := by
        refine ⟨hcopied.bytes hresult.bytes, ?_⟩
        rw [hsize, hcopied.length, hcopied.size]
        exact hresult.size
      have hpart := hcopied.part fun c hc => hfits c (by
        rw [← htext] at hc
        exact List.mem_append_left _ hc)
      obtain ⟨result', hfill, hkind, hlen, hsound', hall⟩ := @ih (i + (heap.text r).length) result1
        (fun r' hr' => hstrings r' (List.mem_cons_of_mem r hr')) hresult1 (by rw [hcopied.length]; omega)
        (fun c hc => by rw [hsize]; exact hfits c (List.mem_append_right _ hc))
      refine ⟨result', ?_, hkind.trans hcopied.kind, hlen.trans hcopied.length, hsound', ?_⟩
      · simp only [fillResult, hunpack, hcopy, hlength, bind_eq_bind, bind_some]
        exact hfill
      · rw [List.flatMap_cons, List.length_append, ← Nat.add_assoc, hall, hpart, ← htext, List.append_assoc]

theorem cp3Set_written {o : Object} {index char : Nat} (hroom : 3 * index + 3 ≤ o.bytes.length)
    (hchar : char < 0x110000) : ∃ o', o.cp3Set index char = some o' ∧ Written o 3 (3 * index) char o' := by
  obtain ⟨o1, h1, s1⟩ := @byteSet_stored o (3 * index) (char &&& 0xFF) (by omega)
    (by rw [show 0xFF = 2 ^ 8 - 1 from rfl, Nat.and_two_pow_sub_one_eq_mod]; omega)
  obtain ⟨o2, h2, s2⟩ := @byteSet_stored o1 (3 * index + 1) ((char >>> 8) &&& 0xFF) (by rw [s1.size]; omega)
    (by rw [show 0xFF = 2 ^ 8 - 1 from rfl, Nat.and_two_pow_sub_one_eq_mod]; omega)
  obtain ⟨o3, h3, s3⟩ := @byteSet_stored o2 (3 * index + 2) (char >>> 16) (by rw [s2.size, s1.size]; omega)
    (by omega)
  refine ⟨o3, ?_, (s1.written3 s2 s3).congr ?_⟩
  · simp only [cp3Set, h1, h2, bind_eq_bind, bind_some]
    exact h3
  · rw [show 0xFF = 2 ^ 8 - 1 from rfl, Nat.and_two_pow_sub_one_eq_mod, Nat.and_two_pow_sub_one_eq_mod,
      Nat.shiftRight_eq_div_pow]
    omega

/-! ## The builder -/

/-- A string of another object than the buffer, or of what has been written of it. -/
def Ref.Before (buffer start : Nat) : Ref → Prop
  | .object address => address ≠ buffer
  | .slice address start' length => address = buffer → start' + length ≤ start

/-- The builder holds what was appended. -/
structure Builder.Holds (b : Builder) (heap : Heap) (appended : List Nat) : Prop where
  place : ∃ o, heap.objects[b.buffer]? = some o ∧ o.kind = .unicode 0 false false ∧ o.length = b.bufferLength
    ∧ o.Sound ∧ b.buffers.reverse.flatMap heap.text ++ o.part b.start (b.index - b.start) = appended
  start_le : b.start ≤ b.index
  index_lt : b.index < b.bufferLength
  kept : ∀ r ∈ b.buffers, heap.Sound r ∧ r.Before b.buffer b.start
  count : b.count = appended.length
  maxCp : b.maxCp = appended.foldl max 0
  codePoints : ∀ c ∈ appended, c < 0x110000

variable {b : Builder} {appended : List Nat}

theorem Ref.Before.of_lt {buffer start : Nat} (h : r.address < buffer) : r.Before buffer start := by
  cases r with
  | object address => exact Nat.ne_of_lt h
  | slice address start' length =>
      intro heq
      exact absurd heq (Nat.ne_of_lt h)

theorem Ref.Before.mono {buffer start stop : Nat} (h : r.Before buffer start) (hle : start ≤ stop) :
    r.Before buffer stop := by
  cases r with
  | object address => exact h
  | slice address start' length =>
      intro heq
      exact Nat.le_trans (h heq) hle

theorem reset_holds {bufferLength : Nat} (h : 0 < bufferLength) (heap : Heap) :
    (reset bufferLength heap).1.Holds (reset bufferLength heap).2 [] where
  place := ⟨_, heap.place_self _, rfl, rfl, heap.mutableUstringAllocate_sound bufferLength, rfl⟩
  start_le := Nat.le_refl 0
  index_lt := h
  kept _ hr := nomatch hr
  count := rfl
  maxCp := rfl
  codePoints _ hc := nomatch hc

theorem getPartial_spec {o : Object} (hplace : heap.objects[b.buffer]? = some o) (hsound : o.Sound)
    (hlt : b.start < b.index) (hle : b.index ≤ o.length) :
    ∃ r, b.getPartial heap = some r ∧ heap.Sound r ∧ r.address = b.buffer
      ∧ heap.text r = o.part b.start (b.index - b.start) ∧ (b.index < o.length → r.Before b.buffer b.index) := by
  have hlength : heap.stringLength (.object b.buffer) = some o.length := by
    rw [Heap.stringLength, hplace]
    rfl
  rw [Builder.getPartial, Heap.stringSlice, hlength]
  simp only [bind_eq_bind, bind_some]
  rw [if_neg (by omega)]
  by_cases hall : b.start = 0 ∧ b.index = o.length
  · rw [if_pos hall]
    refine ⟨_, rfl, .object hplace hsound, rfl, ?_, fun h => by omega⟩
    rw [Heap.text_object hplace, hall.1, hall.2, Nat.sub_zero]
  · rw [if_neg hall]
    exact ⟨_, rfl, .slice hplace hsound (by omega), rfl, Heap.text_slice hplace, fun _ _ => by omega⟩

theorem store_objects (heap : Heap) {address address' : Nat} (o : Object) (h : address' ≠ address) :
    (heap.store address o).objects[address']? = heap.objects[address']? :=
  List.getElem?_set_ne fun heq => h heq.symm

theorem text_store {buffer start : Nat} {o o' : Object} (hplace : heap.objects[buffer]? = some o)
    (hlength : o'.length = o.length) (hsound : o'.Sound) (hcp : ∀ k, k < start → o'.cp k = o.cp k)
    (hr : heap.Sound r) (hbefore : r.Before buffer start) :
    (heap.store buffer o').Sound r ∧ (heap.store buffer o').text r = heap.text r := by
  by_cases haddress : r.address = buffer
  · subst haddress
    have hself : (heap.store r.address o').objects[r.address]? = some o' :=
      List.getElem?_set_self (List.getElem?_eq_some_iff.mp hplace).1
    cases hr with
    | object place sound => exact absurd rfl hbefore
    | @slice address start' length o1 place sound within =>
        obtain rfl : o1 = o := Option.some.inj (place.symm.trans hplace)
        refine ⟨.slice hself hsound (by rw [hlength]; exact within), ?_⟩
        have hle : start' + length ≤ start := hbefore rfl
        rw [Heap.text_slice place]
        exact (Heap.text_slice hself).trans (part_congr fun k _ hk => hcp k (by omega))
  · have hsame := store_objects heap o' haddress
    exact ⟨hr.congr hsame, Heap.text_congr hsame⟩

theorem foldl_max_append (l r : List Nat) : (l ++ r).foldl max 0 = max (l.foldl max 0) (r.foldl max 0) := by
  have hstart : ∀ (r : List Nat) (n : Nat), r.foldl max n = max n (r.foldl max 0) := by
    intro r
    induction r with
    | nil => exact fun n => (Nat.max_zero n).symm
    | cons c r ih =>
        intro n
        rw [List.foldl_cons, List.foldl_cons, ih, ih (max 0 c), Nat.zero_max, Nat.max_assoc]
  rw [List.foldl_append, hstart]

theorem sound_place (o : Object) (h : heap.Sound r) :
    (heap.place o).2.Sound r ∧ (heap.place o).2.text r = heap.text r :=
  ⟨h.congr (heap.place_objects o h.lt), Heap.text_congr (heap.place_objects o h.lt)⟩

theorem flatMap_text_congr {rs : List Ref} (h : ∀ r ∈ rs, heap'.text r = heap.text r) :
    rs.flatMap heap'.text = rs.flatMap heap.text := by
  rw [List.flatMap_def, List.flatMap_def, List.map_congr_left h]

/-- The objects that are known outside of the builder are as they were. -/
structure Grows (buffer : Nat) (heap heap' : Heap) : Prop where
  objects : ∀ address, address < heap.objects.length → address ≠ buffer →
    heap'.objects[address]? = heap.objects[address]?
  length : heap.objects.length ≤ heap'.objects.length

theorem Builder.Holds.appendChar (h : b.Holds heap appended) {char : Nat} (hchar : char < 0x110000) :
    ∃ b' heap', b.appendChar char heap = some (b', heap') ∧ b'.Holds heap' (appended ++ [char])
      ∧ Grows b.buffer heap heap' ∧ (b'.buffer = b.buffer ∨ heap.objects.length ≤ b'.buffer) := by
  obtain ⟨o, hplace, hkind, hlength, hsound, happended⟩ := h.place
  have hstart := h.start_le
  have hindex := h.index_lt
  have hbuffer : b.buffer < heap.objects.length := (List.getElem?_eq_some_iff.mp hplace).1
  have hwidth : width o.cpSize = 3 := by
    rw [Object.cpSize, hkind]
    rfl
  have hroom := hsound.within (show b.index + 1 ≤ o.length by omega)
  rw [hwidth] at hroom
  obtain ⟨o', hset, hthree⟩ := @cp3Set_written o b.index char (by omega) hchar
  have hwritten : Written o (width o.cpSize) (width o.cpSize * b.index) char o' := by rwa [hwidth]
  have hsound' : o'.Sound := by
    refine ⟨hwritten.bytes hsound.bytes, ?_⟩
    rw [cpSize_of_kind hwritten.kind, hwritten.length, hwritten.size]
    exact hsound.size
  -- what is kept is the same, and the slice of the buffer has got the character
  have hkept : ∀ r ∈ b.buffers, (heap.store b.buffer o').Sound r ∧ (heap.store b.buffer o').text r = heap.text r :=
    fun r hr => text_store hplace hwritten.length hsound' (fun k hk => hwritten.cp_of_ne (by omega))
      (h.kept r hr).1 (h.kept r hr).2
  have hself : (heap.store b.buffer o').objects[b.buffer]? = some o' := List.getElem?_set_self hbuffer
  have htexts : b.buffers.reverse.flatMap (heap.store b.buffer o').text
      ++ o'.part b.start (b.index + 1 - b.start) = appended ++ [char] := by
    rw [flatMap_text_congr fun r hr => (hkept r (List.mem_reverse.mp hr)).2,
      show b.index + 1 - b.start = b.index - b.start + 1 by omega, part_succ,
      show b.start + (b.index - b.start) = b.index by omega, hwritten.cp_self,
      part_congr fun k _ hk => hwritten.cp_of_ne (by omega), ← happended, List.append_assoc]
  have hmax : max b.maxCp char = (appended ++ [char]).foldl max 0 := by
    rw [foldl_max_append, ← h.maxCp, List.foldl_cons, List.foldl_nil, Nat.zero_max]
  have hcodes : ∀ c ∈ appended ++ [char], c < 0x110000 := by
    intro c hc
    rcases List.mem_append.mp hc with hc | hc
    · exact h.codePoints c hc
    · exact List.mem_singleton.mp hc ▸ hchar
  have hcount : b.count + 1 = (appended ++ [char]).length := by
    rw [List.length_append, h.count]
    rfl
  simp only [Builder.appendChar, hplace, hset, bind_eq_bind, bind_some]
  by_cases hfull : b.index + 1 < b.bufferLength
  · rw [if_pos hfull]
    refine ⟨_, _, rfl, ⟨⟨o', hself, hwritten.kind.trans hkind, hwritten.length.trans hlength, hsound', htexts⟩,
      by dsimp only; omega, hfull, fun r hr => ⟨(hkept r hr).1, (h.kept r hr).2⟩, hcount, hmax, hcodes⟩,
      ⟨fun address _ hne => store_objects heap o' hne, ?_⟩, .inl rfl⟩
    rw [Heap.store, List.length_set]
  · rw [if_neg hfull]
    obtain ⟨r, hslice, hr, -, htext, -⟩ := @getPartial_spec (heap.store b.buffer o')
      { b with index := b.index + 1, count := b.count + 1, maxCp := max b.maxCp char } o' hself hsound'
      (by dsimp only; omega) (by dsimp only; rw [hwritten.length]; omega)
    rw [hslice]
    have hlen : (heap.store b.buffer o').objects.length = heap.objects.length := List.length_set
    refine ⟨_, _, rfl, ⟨⟨_, Heap.place_self _ _, rfl, rfl, Heap.mutableUstringAllocate_sound _ _, ?_⟩,
      Nat.le_refl 0, Nat.zero_lt_of_lt hindex, fun r' hr' => ?_, hcount, hmax, hcodes⟩,
      ⟨fun address hlt hne => ?_, ?_⟩, .inr ?_⟩
    · rw [List.reverse_cons, List.flatMap_append, List.flatMap_singleton, Nat.sub_self, part_zero, List.append_nil,
        (sound_place _ hr).2, htext, ← htexts]
      refine congrArg (· ++ _) (flatMap_text_congr fun r' hr' => ?_)
      exact (sound_place _ (hkept r' (List.mem_reverse.mp hr')).1).2
    · have hr'' : (heap.store b.buffer o').Sound r' := by
        rcases List.mem_cons.mp hr' with rfl | hr'
        · exact hr
        · exact (hkept r' hr').1
      exact ⟨(sound_place _ hr'').1, .of_lt hr''.lt⟩
    · rw [Heap.place_objects _ _ (by rw [hlen]; exact hlt), store_objects heap o' hne]
    · simp only [Heap.place, List.length_append, hlen]
      omega
    · exact Nat.le_of_eq hlen.symm

theorem Builder.Holds.keepPartial (h : b.Holds heap appended) :
    ∃ b', b.keepPartial heap = some b' ∧ b'.Holds heap appended ∧ b'.buffer = b.buffer
      ∧ b'.bufferLength = b.bufferLength ∧ b'.start = b'.index := by
  rw [Builder.keepPartial]
  by_cases hlt : b.index > b.start
  · obtain ⟨o, hplace, hkind, hlength, hsound, happended⟩ := h.place
    have hindex := h.index_lt
    obtain ⟨r, hslice, hr, -, htext, hbefore⟩ := getPartial_spec hplace hsound hlt (by omega)
    rw [if_pos hlt, hslice]
    refine ⟨_, rfl, ⟨⟨o, hplace, hkind, hlength, hsound, ?_⟩, Nat.le_refl _, hindex, fun r' hr' => ?_, h.count,
      h.maxCp, h.codePoints⟩, rfl, rfl, rfl⟩
    · rw [List.reverse_cons, List.flatMap_append, List.flatMap_singleton, htext, happended, Nat.sub_self,
        part_zero, List.append_nil]
    · rcases List.mem_cons.mp hr' with rfl | hr'
      · exact ⟨hr, hbefore (by omega)⟩
      · exact ⟨(h.kept r' hr').1, (h.kept r' hr').2.mono (Nat.le_of_lt hlt)⟩
  · rw [if_neg hlt]
    exact ⟨b, rfl, h, rfl, rfl, Nat.le_antisymm h.start_le (Nat.le_of_not_lt hlt)⟩

theorem generalMaxCp_eq {r : Ref} (hr : heap.Sound r) : ∃ o start stop, heap.unpackSlice r = some (o, start, stop)
    ∧ generalMaxCp o start stop = some ((heap.text r).foldl max 0) := by
  obtain ⟨o, start, hunpack, -, hsound, hwithin, htext, -⟩ := hr.unpack
  refine ⟨o, start, _, hunpack, ?_⟩
  rw [generalMaxCp, Nat.add_sub_cancel_left, maxLoop_eq hsound.bytes _ _ _ (hsound.within hwithin)]
  exact congrArg (fun l : List Nat => some (l.foldl max 0)) htext.symm

theorem Builder.Holds.appendString (h : b.Holds heap appended) {r : Ref} (hr : heap.Sound r)
    (haddress : r.address ≠ b.buffer) (hcodes : ∀ c ∈ heap.text r, c < 0x110000) :
    ∃ b', b.appendString r heap = some b' ∧ b'.Holds heap (appended ++ heap.text r) ∧ b'.buffer = b.buffer
      ∧ b'.bufferLength = b.bufferLength := by
  obtain ⟨-, -, -, -, -, -, -, hlength⟩ := hr.unpack
  simp only [Builder.appendString, hlength, bind_eq_bind, bind_some]
  by_cases hempty : 0 < (heap.text r).length
  · obtain ⟨b1, hb1, hholds, hbuffer, hbufferLength, hstart⟩ := h.keepPartial
    obtain ⟨o, start, stop, hunpack, hmax⟩ := generalMaxCp_eq hr
    obtain ⟨o1, hplace, hkind, hlength1, hsound1, happended⟩ := hholds.place
    have hbefore : r.Before b1.buffer b1.start := by
      rw [hbuffer]
      cases r with
      | object address => exact haddress
      | slice address start length => exact fun heq => absurd heq haddress
    simp only [if_pos hempty, hb1, hunpack, hmax, bind_some]
    refine ⟨_, rfl, ⟨⟨o1, hplace, hkind, hlength1, hsound1, ?_⟩, hholds.start_le, hholds.index_lt,
      fun r' hr' => ?_, ?_, ?_, fun c hc => ?_⟩, hbuffer, hbufferLength⟩
    · rw [hstart, Nat.sub_self, part_zero, List.append_nil] at happended
      rw [List.reverse_cons, List.flatMap_append, List.flatMap_singleton, happended, hstart, Nat.sub_self, part_zero,
        List.append_nil]
    · rcases List.mem_cons.mp hr' with rfl | hr'
      · exact ⟨hr, hbefore⟩
      · exact hholds.kept r' hr'
    · rw [List.length_append, ← hholds.count]
    · rw [foldl_max_append, ← hholds.maxCp]
    · rcases List.mem_append.mp hc with hc | hc
      · exact h.codePoints c hc
      · exact hcodes c hc
  · have hnil : heap.text r = [] := List.eq_nil_of_length_eq_zero (by omega)
    rw [hnil, List.append_nil]
    exact ⟨b, rfl, h, rfl, rfl⟩

theorem Builder.Holds.strings (h : b.Holds heap appended) :
    ∃ strings, b.strings heap = some strings ∧ (∀ r ∈ strings, heap.Sound r) ∧ strings.flatMap heap.text = appended := by
  obtain ⟨o, hplace, hkind, hlength, hsound, happended⟩ := h.place
  have hindex := h.index_lt
  rw [Builder.strings]
  by_cases hlt : b.index > b.start
  · obtain ⟨r, hslice, hr, -, htext, -⟩ := getPartial_spec hplace hsound hlt (by omega)
    rw [if_pos hlt, hslice]
    refine ⟨_, rfl, fun r' hr' => ?_, ?_⟩
    · rcases List.mem_cons.mp (List.mem_reverse.mp hr') with rfl | hr'
      · exact hr
      · exact (h.kept r' hr').1
    · rw [List.reverse_cons, List.flatMap_append, List.flatMap_singleton, htext, happended]
  · rw [if_neg hlt]
    rw [show b.index - b.start = 0 by omega, part_zero, List.append_nil] at happended
    exact ⟨_, rfl, fun r hr => (h.kept r (List.mem_reverse.mp hr)).1, happended⟩

end MitScheme.StringBuilder
