import MitScheme.Runtime.StringBuilderProof

/-!
# Runs of a program that uses a builder

Next to the world with its bytes, a world of texts: what is known and what was appended, as characters. The
two go side by side, and fail together.
-/

namespace MitScheme.StringBuilder

open Normalization (Str Tables immutableUstring canonicalComposition canonicalDecomposition)
open Normalization (angstromTables flaggedNfc stringToNfc)
open Object List Option

variable {T : Tables} {heap heap' : Heap} {r : Ref} {b : Builder} {appended : List Nat}

structure Texts where
  known : List (List Nat)
  appended : List Nat

/-- The text that is asked for. -/
def Request.text (T : Tables) : Request → List Nat → Option (List Nat)
  | .nfc, appended => some (canonicalComposition T (canonicalDecomposition T appended))
  | .legacy, appended => if ∀ c ∈ appended, c < 0x100 then some appended else none
  | .immutable, appended | .mutable, appended => some appended

def Texts.perform (T : Tables) (t : Texts) : Op → Option Texts
  | .allocate o => some { t with known := t.known ++ [o.1.chars] }
  | .slice k start stop => do
      let string ← t.known[k]?
      if stop ≤ string.length ∧ start ≤ stop then some { t with known := t.known ++ [slice string start stop] }
      else none
  | .appendChar char => if char < 0x110000 then some { t with appended := t.appended ++ [char] } else none
  | .appendString k => do return { t with appended := t.appended ++ (← t.known[k]?) }
  | .build request => do return { t with known := t.known ++ [← request.text T t.appended] }
  | .reset => some { t with appended := [] }

def Texts.performAll (T : Tables) : Texts → List Op → Option Texts
  | t, [] => some t
  | t, op :: ops => (t.perform T op).bind fun t => performAll T t ops

/-! ## The bytes of a string -/

theorem bytesOf_length (cpSize char : Nat) : (bytesOf cpSize char).length = width cpSize := by
  unfold bytesOf
  split
  · rfl
  · rfl
  · rename_i h1 h2
    exact (width_other h1 h2).symm

theorem bytesOf_lt (cpSize char : Nat) : ∀ b ∈ bytesOf cpSize char, b < 0x100 := by
  intro b hb
  unfold bytesOf at hb
  split at hb <;> simp only [mem_cons, not_mem_nil, or_false] at hb <;> omega

theorem flatMap_bytesOf_length (cpSize : Nat) (chars : List Nat) :
    (chars.flatMap (bytesOf cpSize)).length = width cpSize * chars.length := by
  induction chars with
  | nil => rfl
  | cons c chars ih =>
      rw [flatMap_cons, length_append, bytesOf_length, ih, length_cons, Nat.mul_succ, Nat.add_comm]

theorem getD_flatMap_bytesOf (cpSize : Nat) {j : Nat} (hj : j < width cpSize) : ∀ (chars : List Nat) (k : Nat)
    (hk : k < chars.length), (chars.flatMap (bytesOf cpSize)).getD (width cpSize * k + j) 0
      = (bytesOf cpSize chars[k]).getD j 0
  | c :: chars, 0, _ => by
      have hlt : j < (bytesOf cpSize c).length := by rwa [bytesOf_length]
      rw [Nat.mul_zero, Nat.zero_add, flatMap_cons, getElem_cons_zero, getD_eq_getElem?_getD,
        List.getElem?_append_left hlt, ← getD_eq_getElem?_getD]
  | c :: chars, k + 1, hk => by
      have hindex : width cpSize * (k + 1) + j = (bytesOf cpSize c).length + (width cpSize * k + j) := by
        rw [bytesOf_length, Nat.mul_succ]
        omega
      rw [flatMap_cons, hindex, getD_eq_getElem?_getD,
        List.getElem?_append_right (Nat.le_add_right _ _), Nat.add_sub_cancel_left]
      exact getD_flatMap_bytesOf cpSize hj chars k (Nat.lt_of_succ_lt_succ hk)

variable {o : Object} {chars : List Nat} {buffer : Nat}

theorem value_bytesOf {cpSize char i : Nat}
    (hbytes : ∀ j < width cpSize, o.byte (i + j) = (bytesOf cpSize char).getD j 0)
    (hfits : char < 0x100 ^ width cpSize) : o.value (width cpSize) i = char := by
  unfold bytesOf at hbytes
  split at hbytes
  · exact (hbytes 0 Nat.zero_lt_one).trans (Nat.mod_eq_of_lt hfits)
  · have h0 : o.byte i = char % 0x100 := hbytes 0 (by decide)
    have h1 : o.byte (i + 1) = char / 0x100 % 0x100 := hbytes 1 (by decide)
    have hlt : char < 0x100 ^ 2 := hfits
    rw [width, value_two, h1]
    omega
  · rename_i h1 h2
    rw [width_other h1 h2] at hbytes hfits ⊢
    have h0 : o.byte i = char % 0x100 := hbytes 0 (by decide)
    have h1 : o.byte (i + 1) = char / 0x100 % 0x100 := hbytes 1 (by decide)
    have h2 : o.byte (i + 2) = char / 0x10000 % 0x100 := hbytes 2 (by decide)
    rw [value_three, h1]
    omega

theorem encode_spec {cpSize : Nat} (inNfc inNfd : Bool)
    (hfits : ∀ c ∈ chars, c < 0x100 ^ width cpSize) :
    (encode (.ustring chars cpSize inNfc inNfd)).Sound
      ∧ (encode (.ustring chars cpSize inNfc inNfd)).part 0 chars.length = chars := by
  refine ⟨⟨fun b hb => ?_, Nat.le_of_eq (flatMap_bytesOf_length cpSize chars).symm⟩,
    ext_getElem (part_length _ _) fun k hk hk' => ?_⟩
  · obtain ⟨c, -, hb⟩ := mem_flatMap.mp hb
    exact bytesOf_lt cpSize c b hb
  · simp only [part, getElem_map, getElem_range', Nat.zero_add, Nat.one_mul]
    exact value_bytesOf (fun j hj => getD_flatMap_bytesOf cpSize hj chars k hk')
      (hfits _ (getElem_mem hk'))

/-! ## Normal forms -/

/-- The tables decompose characters into characters. -/
structure CodePoints (T : Tables) : Prop where
  char : ∀ c c', T.canonicalDm c = .char c' → c' ≠ c → c < 0x110000 ∧ c' < 0x110000
  string : ∀ c c1 c2, T.canonicalDm c = .string c1 c2 → c < 0x110000 ∧ c1 < 0x110000 ∧ c2 < 0x110000

open Normalization in
theorem decomposeChar_lt (hT : CodePoints T) (c : Nat) (hc : c < 0x110000) :
    ∀ x ∈ decomposeChar T c, x < 0x110000 := by
  intro x
  induction c using decomposeChar.induct T with
  | case1 c h =>
      intro hx
      rw [decomposeChar_precomposed h] at hx
      have hjamo := jamo_of_mem h hx
      rw [jamoLeading_iff, jamoVowel_iff, jamoTrailing_iff] at hjamo
      omega
  | case2 c h hself =>
      intro hx
      rw [decomposeChar_self ⟨Bool.eq_false_iff.mpr h, hself⟩] at hx
      exact mem_singleton.mp hx ▸ hc
  | case3 c h hne c' hdm ih =>
      rw [decomposeChar_char (Bool.eq_false_iff.mpr h) hdm hne]
      exact ih (hT.char c c' hdm fun heq => hne (heq ▸ hdm)).2
  | case4 c h hne c1 c2 hdm ih =>
      intro hx
      rw [decomposeChar_string (Bool.eq_false_iff.mpr h) hdm] at hx
      have hparts := hT.string c c1 c2 hdm
      rcases mem_append.mp hx with hx | hx
      · exact ih hparts.2.1 hx
      · exact mem_singleton.mp hx ▸ hparts.2.2

open Normalization in
theorem nfc_lt (hT : T.WellFormed) (hcodes : CodePoints T) (h : ∀ c ∈ chars, c < 0x110000) :
    ∀ c ∈ canonicalComposition T (canonicalDecomposition T chars), c < 0x110000 := by
  intro c hc
  have hround := canonicalDecomposition_canonicalComposition hT (ordered_canonicalDecomposition hT chars)
  -- what the character decomposes into is in the decomposition of the characters
  have hparts : ∀ x ∈ decomposeChar T c, x < 0x110000 := by
    intro x hx
    have hmem : x ∈ canonicalDecomposition T (canonicalComposition T (canonicalDecomposition T chars)) := by
      rw [canonicalDecomposition_eq, Arranging.mem_arrange]
      exact mem_flatMap.mpr ⟨c, hc, hx⟩
    rw [hround, canonicalDecomposition_eq, Arranging.mem_arrange] at hmem
    obtain ⟨c', hc', hx'⟩ := mem_flatMap.mp hmem
    exact decomposeChar_lt hcodes c' (h c' hc') x hx'
  by_cases hprecomposed : jamoPrecomposed c = true
  · rw [jamoPrecomposed_iff] at hprecomposed
    omega
  · cases hdm : T.canonicalDm c with
    | char c' =>
        by_cases heq : c' = c
        · subst heq
          refine hparts c' ?_
          rw [decomposeChar_self ⟨Bool.eq_false_iff.mpr hprecomposed, hdm⟩]
          exact mem_singleton_self c'
        · exact (hcodes.char c c' hdm heq).1
    | string c1 c2 => exact (hcodes.string c c1 c2 hdm).1

/-- What was in memory is still there. -/
structure Heap.Extends (heap heap' : Heap) : Prop where
  objects : ∀ address, address < heap.objects.length → heap'.objects[address]? = heap.objects[address]?
  length : heap.objects.length ≤ heap'.objects.length

theorem Heap.extends_place (heap : Heap) (o : Object) : heap.Extends (heap.place o).2 := by
  refine ⟨fun _ h => heap.place_objects o h, ?_⟩
  rw [Heap.place, length_append]
  exact Nat.le_add_right _ _

theorem Heap.Extends.trans {heap'' : Heap} (h : heap.Extends heap') (h' : heap'.Extends heap'') :
    heap.Extends heap'' where
  objects address hlt := (h'.objects address (Nat.lt_of_lt_of_le hlt h.length)).trans (h.objects address hlt)
  length := Nat.le_trans h.length h'.length

theorem Heap.Sound.extend (hr : heap.Sound r) (h : heap.Extends heap') :
    heap'.Sound r ∧ heap'.text r = heap.text r :=
  ⟨hr.congr (h.objects _ hr.lt), Heap.text_congr (h.objects _ hr.lt)⟩

theorem Builder.Holds.extend (hb : b.Holds heap appended) (h : heap.Extends heap') : b.Holds heap' appended := by
  obtain ⟨o, hplace, hkind, hlength, hsound, happended⟩ := hb.place
  refine { hb with
    place := ⟨o, (h.objects _ (List.getElem?_eq_some_iff.mp hplace).1).trans hplace, hkind, hlength, hsound, ?_⟩
    kept := fun r hr => ⟨((hb.kept r hr).1.extend h).1, (hb.kept r hr).2⟩ }
  rw [← happended, flatMap_text_congr fun r hr => ((hb.kept r (mem_reverse.mp hr)).1.extend h).2]

/-! ## Slices and builds -/

theorem stringSlice_spec (hr : heap.Sound r) {start stop : Nat} (hstop : stop ≤ (heap.text r).length)
    (hstart : start ≤ stop) : ∃ r', heap.stringSlice r start stop = some r' ∧ heap.Sound r' ∧ r'.address = r.address
      ∧ heap.text r' = slice (heap.text r) start stop := by
  obtain ⟨-, -, -, -, -, -, -, hlength⟩ := hr.unpack
  simp only [Heap.stringSlice, hlength, bind_eq_bind, bind_some]
  rw [if_neg fun h => h ⟨hstop, hstart⟩]
  by_cases hall : start = 0 ∧ stop = (heap.text r).length
  · rw [if_pos hall, hall.1, hall.2, slice_all]
    exact ⟨r, rfl, hr, rfl, rfl⟩
  · rw [if_neg hall]
    cases hr with
    | @object address o place sound =>
        rw [Heap.text_object place, part_length] at hstop
        refine ⟨_, rfl, .slice place sound (by omega), rfl, ?_⟩
        rw [Heap.text_slice place, Heap.text_object place, slice_part o hstart hstop, Nat.zero_add]
    | @slice address start' length o place sound within =>
        rw [Heap.text_slice place, part_length] at hstop
        refine ⟨_, rfl, .slice place sound (by omega), rfl, ?_⟩
        rw [Heap.text_slice place, Heap.text_slice place, slice_part o hstart hstop]

theorem stringSlice_eq_none (hr : heap.Sound r) {start stop : Nat}
    (h : ¬(stop ≤ (heap.text r).length ∧ start ≤ stop)) : heap.stringSlice r start stop = none := by
  obtain ⟨-, -, -, -, -, -, -, hlength⟩ := hr.unpack
  simp only [Heap.stringSlice, hlength, bind_eq_bind, bind_some]
  rw [if_pos h]

/-- An object is made that has the text, and room for each of its characters. -/
structure Makes (heap heap' : Heap) (r : Ref) (text : List Nat) : Prop where
  extend : heap.Extends heap'
  fresh : heap.objects.length ≤ r.address
  sound : heap'.Sound r
  made : heap'.text r = text
  room : ∀ o, heap'.objects[r.address]? = some o → ∀ c ∈ text, c < 0x100 ^ width o.cpSize

theorem place_makes {o : Object} {text : List Nat} (hsound : o.Sound) (hpart : o.part 0 o.length = text)
    (hroom : ∀ c ∈ text, c < 0x100 ^ width o.cpSize) :
    Makes heap (heap.place o).2 (.object (heap.place o).1) text where
  extend := heap.extends_place o
  fresh := Nat.le_refl _
  sound := .object (heap.place_self o) hsound
  made := (Heap.text_object (heap.place_self o)).trans hpart
  room o' h := by
    obtain rfl : o = o' := Option.some.inj ((heap.place_self o).symm.trans h)
    exact hroom

theorem Builder.Holds.fill (h : b.Holds heap appended) {strings : List Ref} (hstrings : b.strings heap = some strings) (hsound : o.Sound) (hlength : o.length = appended.length)
    (hroom : ∀ c ∈ appended, c < 0x100 ^ width o.cpSize) :
    ∃ o', fillResult heap strings 0 o = some o' ∧ o'.kind = o.kind ∧ o'.Sound ∧ o'.part 0 o'.length = appended := by
  obtain ⟨strings', hstrings', hsounds, htexts⟩ := h.strings
  obtain rfl : strings' = strings := Option.some.inj (hstrings'.symm.trans hstrings)
  obtain ⟨o', hfill, hkind, hlength', hsound', hpart⟩ := @fillResult_fills heap strings' 0 o hsounds hsound
    (by rw [htexts, hlength, Nat.zero_add]) (by rwa [htexts])
  refine ⟨o', hfill, hkind, hsound', ?_⟩
  rwa [htexts, Nat.zero_add, ← hlength, ← hlength', part_zero] at hpart

theorem foldl_max_lt {n : Nat} (hn : 0 < n) (h : ∀ c ∈ chars, c < n) : chars.foldl max 0 < n :=
  @List.foldlRecOn _ _ (· < n) chars max 0 hn fun _ hb c hc => max_lt hb (h c hc)

theorem immutableKind_cases (maxCp : Nat) :
    (maxCp < 0x100 ∧ Heap.immutableKind maxCp = .unicode 1 true (maxCp < 0xC0))
      ∨ (¬maxCp < 0x100 ∧ maxCp < 0x10000 ∧ Heap.immutableKind maxCp = .unicode 2 (maxCp < 0x300) false)
      ∨ (¬maxCp < 0x100 ∧ ¬maxCp < 0x10000 ∧ Heap.immutableKind maxCp = .unicode 3 false false) := by
  by_cases h1 : maxCp < 0x100
  · exact .inl ⟨h1, if_pos h1⟩
  · by_cases h2 : maxCp < 0x10000
    · exact .inr (.inl ⟨h1, h2, (if_neg h1).trans (if_pos h2)⟩)
    · exact .inr (.inr ⟨h1, h2, (if_neg h1).trans (if_neg h2)⟩)

theorem immutableKind_room {chars : List Nat} (hcodes : ∀ c ∈ chars, c < 0x110000) {o : Object}
    (hkind : o.kind = Heap.immutableKind (chars.foldl max 0)) : ∀ c ∈ chars, c < 0x100 ^ width o.cpSize := by
  intro c hc
  have hle := (Normalization.le_foldl_max chars 0).2 c hc
  have hlt := hcodes c hc
  rw [cpSize, hkind]
  rcases immutableKind_cases (chars.foldl max 0) with ⟨hmax, heq⟩ | ⟨-, hmax, heq⟩ | ⟨-, -, heq⟩
  · rw [heq]
    exact Nat.lt_of_le_of_lt hle hmax
  · rw [heq]
    exact Nat.lt_of_le_of_lt hle hmax
  · rw [heq]
    exact Nat.lt_trans hlt (by decide)

theorem immutableUstring_cases (chars : List Nat) : ∃ cpSize inNfc inNfd,
    Heap.immutableKind (chars.foldl max 0) = .unicode cpSize inNfc inNfd
      ∧ immutableUstring chars = .ustring chars cpSize inNfc inNfd := by
  rcases immutableKind_cases (chars.foldl max 0) with ⟨h, heq⟩ | ⟨h1, h2, heq⟩ | ⟨h1, h2, heq⟩
  · exact ⟨_, _, _, heq, if_pos h⟩
  · exact ⟨_, _, _, heq, (if_neg h1).trans (if_pos h2)⟩
  · exact ⟨_, _, _, heq, (if_neg h1).trans (if_neg h2)⟩

theorem view_eq (hkind : o.kind = Heap.immutableKind (appended.foldl max 0))
    (hpart : o.part 0 o.length = appended) : o.view = immutableUstring appended := by
  obtain ⟨cpSize, inNfc, inNfd, hkind', heq⟩ := immutableUstring_cases appended
  rw [view, hkind, hkind', heq, chars_eq_part, hpart]

theorem placeString_makes {string : Normalization.Ustring} {text : List Nat}
    (h : string = (immutableUstring text).setInNfc) (hcodes : ∀ c ∈ text, c < 0x110000) :
    Makes heap (heap.placeString (.ustring string)).2 (heap.placeString (.ustring string)).1 text := by
  obtain ⟨cpSize, inNfc, inNfd, hkind, heq⟩ := immutableUstring_cases text
  have hroom : ∀ c ∈ text, c < 0x100 ^ width cpSize :=
    @immutableKind_room text hcodes ⟨_, 0, []⟩ hkind.symm
  obtain ⟨hsound, hpart⟩ := encode_spec true inNfd hroom
  rw [heq] at h
  subst h
  exact place_makes hsound hpart hroom

theorem stringToNfc_unflagged {string : Str} (h : flaggedNfc string = false) :
    ∃ text, stringToNfc T string = .ustring (immutableUstring text).setInNfc := by
  rw [stringToNfc, if_neg (by rw [h]; exact Bool.false_ne_true)]
  split
  · exact ⟨_, rfl⟩
  · exact ⟨_, rfl⟩

theorem setInNfc_chars (text : List Nat) : (Str.ustring (immutableUstring text).setInNfc).chars = text := by
  obtain ⟨cpSize, inNfc, inNfd, -, heq⟩ := immutableUstring_cases text
  rw [heq]
  rfl

theorem build_spec (hT : T.WellFormed) (hcodes : CodePoints T) (h : b.Holds heap appended) (request : Request) :
    (∃ r heap' text, build T request b heap = some (r, heap') ∧ request.text T appended = some text
        ∧ Makes heap heap' r text ∧ ∀ c ∈ text, c < 0x110000)
      ∨ (build T request b heap = none ∧ request.text T appended = none) := by
  obtain ⟨strings, hstrings, -, -⟩ := h.strings
  -- the immutable string, which is what two of the requests begin with
  obtain ⟨o, hallocate, hkind, hlength, hsound⟩ := heap.immutableUstringAllocate_sound b.count b.maxCp
  rw [h.maxCp] at hkind
  obtain ⟨o', hfill, hkind', hsound', hpart⟩ := h.fill hstrings hsound (hlength.trans h.count)
    (immutableKind_room h.codePoints hkind)
  rw [hkind] at hkind'
  have himmutable : buildStringImmutable strings b.count b.maxCp heap = some o' := by
    rw [buildStringImmutable, hallocate]
    exact hfill
  have hplaced := @place_makes heap o' appended hsound' hpart (immutableKind_room h.codePoints hkind')
  cases request with
  | nfc =>
      have hview := view_eq hkind' hpart
      obtain ⟨hvalid, hchars⟩ := Normalization.immutableUstring_valid hT appended
      have hnfc := (@Normalization.stringToNfc_spec T hT (.ustring (immutableUstring appended)) hvalid).2
      rw [show (Str.ustring (immutableUstring appended)).chars = appended from hchars] at hnfc
      simp only [build, hstrings, himmutable, hview, bind_eq_bind, bind_some]
      by_cases hflag : flaggedNfc (.ustring (immutableUstring appended)) = true
      · rw [if_pos hflag]
        rw [stringToNfc, if_pos hflag] at hnfc
        refine .inl ⟨_, _, appended, rfl, congrArg some ?_, hplaced, h.codePoints⟩
        exact hnfc.symm.trans hchars
      · rw [if_neg hflag]
        obtain ⟨text, htext⟩ := @stringToNfc_unflagged T _ (Bool.eq_false_iff.mpr hflag)
        rw [htext, setInNfc_chars] at hnfc
        have hlt : ∀ c ∈ text, c < 0x110000 := by
          rw [hnfc]
          exact nfc_lt hT hcodes h.codePoints
        have hmakes := @placeString_makes (heap.place o').2 _ text rfl hlt
        refine .inl ⟨_, _, text, ?_, congrArg some hnfc.symm, ⟨hplaced.extend.trans hmakes.extend,
          Nat.le_trans hplaced.extend.length hmakes.fresh, hmakes.sound, hmakes.made, hmakes.room⟩, hlt⟩
        rw [htext]
        rfl
  | immutable =>
      refine .inl ⟨_, _, appended, ?_, rfl, hplaced, h.codePoints⟩
      simp only [build, hstrings, himmutable, bind_eq_bind, bind_some]
      rfl
  | mutable =>
      have hroom : ∀ c ∈ appended, c < 0x100 ^ width (heap.mutableUstringAllocate b.count).cpSize :=
        fun c hc => Nat.lt_trans (h.codePoints c hc) (show 0x110000 < 0x100 ^ 3 by decide)
      obtain ⟨o1, hfill1, hkind1, hsound1, hpart1⟩ := h.fill hstrings (heap.mutableUstringAllocate_sound b.count)
        h.count hroom
      refine .inl ⟨_, _, appended, ?_, rfl, place_makes hsound1 hpart1 ?_, h.codePoints⟩
      · simp only [build, hstrings, buildStringMutable, hfill1, bind_eq_bind, bind_some]
        rfl
      · rwa [cpSize_of_kind hkind1]
  | legacy =>
      simp only [build, hstrings, buildStringLegacy, Request.text, bind_eq_bind, bind_some]
      by_cases hlow : b.maxCp < 0x100
      · have hroom : ∀ c ∈ appended, c < 0x100 := by
          intro c hc
          have hle := (Normalization.le_foldl_max appended 0).2 c hc
          rw [← h.maxCp] at hle
          exact Nat.lt_of_le_of_lt hle hlow
        obtain ⟨o1, hfill1, hkind1, hsound1, hpart1⟩ := h.fill hstrings (heap.legacyStringAllocate_sound b.count)
          h.count hroom
        rw [if_pos hlow, hfill1, if_pos hroom]
        refine .inl ⟨_, _, appended, rfl, rfl, place_makes hsound1 hpart1 ?_, h.codePoints⟩
        rwa [cpSize_of_kind hkind1]
      · rw [if_neg hlow, if_neg fun hall => hlow ?_]
        · exact .inr ⟨rfl, rfl⟩
        · rw [h.maxCp]
          exact foldl_max_lt (by decide) hall

/-! ## Runs -/

/-- A string that the program knows. The buffer is not one. -/
structure Knows (heap : Heap) (buffer : Nat) (r : Ref) (text : List Nat) : Prop where
  sound : heap.Sound r
  eq : heap.text r = text
  address : r.address ≠ buffer
  codePoints : ∀ c ∈ text, c < 0x110000

theorem Knows.extend {buffer : Nat} {text : List Nat} (h : Knows heap buffer r text) (hext : heap.Extends heap') :
    Knows heap' buffer r text :=
  ⟨(h.sound.extend hext).1, (h.sound.extend hext).2.trans h.eq, h.address, h.codePoints⟩

/-- A world has the texts of another. -/
structure World.Holds (w : World) (t : Texts) : Prop where
  builder : w.builder.Holds w.heap t.appended
  known : List.Forall₂ (Knows w.heap w.builder.buffer) w.known t.known

theorem known_concat {known : List Ref} {texts : List (List Nat)} {text : List Nat}
    (h : List.Forall₂ (Knows heap buffer) known texts) (hext : heap.Extends heap') (hr : Knows heap' buffer r text) :
    List.Forall₂ (Knows heap' buffer) (known ++ [r]) (texts ++ [text]) :=
  rel_append (h.imp fun _ _ hk => hk.extend hext) (.cons hr .nil)

theorem known_get {known : List Ref} {texts : List (List Nat)}
    (h : List.Forall₂ (Knows heap buffer) known texts) (k : Nat) :
    (∃ r text, known[k]? = some r ∧ texts[k]? = some text ∧ Knows heap buffer r text)
      ∨ (known[k]? = none ∧ texts[k]? = none) := by
  induction h generalizing k with
  | nil => exact .inr ⟨rfl, rfl⟩
  | cons hr hrest ih =>
      cases k with
      | zero => exact .inl ⟨_, _, rfl, rfl, hr⟩
      | succ k => exact ih k

theorem Knows.slice {buffer : Nat} {text : List Nat} (h : Knows heap buffer r text) {start stop : Nat}
    (hrange : stop ≤ text.length ∧ start ≤ stop) :
    ∃ r', heap.stringSlice r start stop = some r' ∧ Knows heap buffer r' (slice text start stop) := by
  obtain ⟨hsound, rfl, haddress, hcodes⟩ := h
  obtain ⟨r', hslice, hsound', haddress', htext⟩ := stringSlice_spec hsound hrange.1 hrange.2
  refine ⟨r', hslice, hsound', htext, ?_, fun c hc => ?_⟩
  · rw [haddress']
    exact haddress
  · exact hcodes c (mem_of_mem_drop (mem_of_mem_take hc))

theorem Knows.grows {buffer' : Nat} {text : List Nat} (h : Knows heap buffer r text)
    (hgrows : Grows buffer heap heap') (hbuffer : buffer' = buffer ∨ heap.objects.length ≤ buffer') :
    Knows heap' buffer' r text := by
  have hsame := hgrows.objects _ h.sound.lt h.address
  refine ⟨h.sound.congr hsame, (Heap.text_congr hsame).trans h.eq, ?_, h.codePoints⟩
  rcases hbuffer with rfl | hbuffer
  · exact h.address
  · exact Nat.ne_of_lt (Nat.lt_of_lt_of_le h.sound.lt hbuffer)

theorem Builder.Holds.buffer_lt (h : b.Holds heap appended) : b.buffer < heap.objects.length := by
  obtain ⟨o, hbuffer, -⟩ := h.place
  exact (List.getElem?_eq_some_iff.mp hbuffer).1

theorem knows_place (o : StringObject) (h : buffer < heap.objects.length) :
    Knows (heap.place o.1).2 buffer (.object (heap.place o.1).1) o.1.chars where
  sound := .object (heap.place_self o.1) o.2.sound
  eq := (Heap.text_object (heap.place_self o.1)).trans (chars_eq_part o.1).symm
  address := Nat.ne_of_gt h
  codePoints c hc := by
    obtain ⟨k, hk, rfl⟩ := List.mem_map.mp hc
    exact o.2.codePoints k (mem_range.mp hk)

theorem rel_bind {α β γ δ : Type} {R : α → β → Prop} {S : γ → δ → Prop} {x : Option α} {y : Option β}
    {f : α → Option γ} {g : β → Option δ} (h : Option.Rel R x y) (hf : ∀ a b, R a b → Option.Rel S (f a) (g b)) :
    Option.Rel S (x.bind f) (y.bind g) := by
  cases h with
  | some h => exact hf _ _ h
  | none => exact .none

theorem rel_imp {α β : Type} {R S : α → β → Prop} {x : Option α} {y : Option β} (h : Option.Rel R x y)
    (himp : ∀ a b, R a b → S a b) : Option.Rel S x y := by
  cases h with
  | some h => exact .some (himp _ _ h)
  | none => exact .none

variable {w : World} {t : Texts}

theorem World.Holds.perform (hT : T.WellFormed) (hcodes : CodePoints T) (h : w.Holds t) (op : Op) :
    Option.Rel World.Holds (w.perform T op) (t.perform T op) := by
  obtain ⟨hbuilder, hknown⟩ := h
  cases op with
  | allocate o =>
      exact .some ⟨hbuilder.extend (w.heap.extends_place o.1),
        known_concat hknown (w.heap.extends_place o.1) (knows_place o hbuilder.buffer_lt)⟩
  | slice k start stop =>
      rcases known_get hknown k with ⟨r, text, hr, htext, hknows⟩ | ⟨hr, htext⟩
      · simp only [World.perform, Texts.perform, hr, htext, bind_eq_bind, bind_some]
        by_cases hrange : stop ≤ text.length ∧ start ≤ stop
        · obtain ⟨r', hslice, hknows'⟩ := hknows.slice hrange
          rw [if_pos hrange, hslice]
          exact .some ⟨hbuilder, rel_append hknown (.cons hknows' .nil)⟩
        · rw [if_neg hrange]
          rw [← hknows.eq] at hrange
          rw [stringSlice_eq_none hknows.sound hrange]
          exact .none
      · simp only [World.perform, Texts.perform, hr, htext, bind_eq_bind, bind_none]
        exact .none
  | appendChar char =>
      by_cases hchar : char < 0x110000
      · obtain ⟨b', heap', hperform, hholds, hgrows, hbuffer⟩ := hbuilder.appendChar hchar
        simp only [World.perform, Texts.perform, if_pos hchar, hperform, bind_eq_bind, bind_some]
        exact .some ⟨hholds, hknown.imp fun _ _ hr => hr.grows hgrows hbuffer⟩
      · simp only [World.perform, Texts.perform, if_neg hchar]
        exact .none
  | appendString k =>
      rcases known_get hknown k with ⟨r, text, hr, htext, hknows⟩ | ⟨hr, htext⟩
      · obtain ⟨b', hperform, hholds, hbuffer, -⟩ := hbuilder.appendString hknows.sound hknows.address
          (by rw [hknows.eq]; exact hknows.codePoints)
        simp only [World.perform, Texts.perform, hr, htext, hperform, bind_eq_bind, bind_some]
        rw [hknows.eq] at hholds
        refine .some ⟨hholds, ?_⟩
        rw [hbuffer]
        exact hknown
      · simp only [World.perform, Texts.perform, hr, htext, bind_eq_bind, bind_none]
        exact .none
  | build request =>
      rcases build_spec hT hcodes hbuilder request with ⟨r, heap', text, hbuild, htext, hmakes, hlt⟩ | ⟨hbuild, htext⟩
      · simp only [World.perform, Texts.perform, hbuild, htext, bind_eq_bind, bind_some]
        have hne : r.address ≠ w.builder.buffer :=
          Nat.ne_of_gt (Nat.lt_of_lt_of_le hbuilder.buffer_lt hmakes.fresh)
        exact .some ⟨hbuilder.extend hmakes.extend,
          known_concat hknown hmakes.extend ⟨hmakes.sound, hmakes.made, hne, hlt⟩⟩
      · simp only [World.perform, Texts.perform, hbuild, htext, bind_eq_bind, bind_none]
        exact .none
  | reset =>
      -- the new buffer is no string that is known
      refine .some ⟨reset_holds (Nat.zero_lt_of_lt hbuilder.index_lt) w.heap, hknown.imp fun r text hr => ?_⟩
      have hextends := w.heap.extends_place (w.heap.mutableUstringAllocate w.builder.bufferLength)
      exact { hr.extend hextends with address := Nat.ne_of_lt hr.sound.lt }

theorem World.Holds.performAll (hT : T.WellFormed) (hcodes : CodePoints T) (ops : List Op) : ∀ {w : World} {t : Texts},
    w.Holds t → Option.Rel World.Holds (w.performAll T ops) (t.performAll T ops) := by
  induction ops with
  | nil => exact fun h => .some h
  | cons op ops ih =>
      intro w t h
      exact rel_bind (h.perform hT hcodes op) fun _ _ => ih

theorem start_holds {bufferLength : Nat} (h : 0 < bufferLength) (garbage : Nat → Nat) :
    (World.start bufferLength garbage).Holds ⟨[], []⟩ :=
  ⟨reset_holds h ⟨[], garbage⟩, .nil⟩

/-! ## What is built -/

/-- What can be seen of a world with some texts: the strings, the counts of the builder, and that a string that
is built next has room for its characters. -/
structure World.Shows (T : Tables) (w : World) (t : Texts) : Prop where
  known : w.known.map w.heap.text = t.known
  count : w.builder.count = t.appended.length
  maxCp : w.builder.maxCp = t.appended.foldl max 0
  room : ∀ request r heap', build T request w.builder w.heap = some (r, heap') →
    ∃ o, heap'.objects[r.address]? = some o ∧ ∀ c ∈ heap'.text r, c < 0x100 ^ width o.cpSize

theorem World.Holds.shows (hT : T.WellFormed) (hcodes : CodePoints T) (h : w.Holds t) : w.Shows T t where
  known := by
    have hmap : ∀ {known : List Ref} {texts : List (List Nat)},
        List.Forall₂ (Knows w.heap w.builder.buffer) known texts → known.map w.heap.text = texts := by
      intro known texts hknown
      induction hknown with
      | nil => rfl
      | cons hr _ ih => rw [map_cons, hr.eq, ih]
    exact hmap h.known
  count := h.builder.count
  maxCp := h.builder.maxCp
  room request r heap' hbuild := by
    rcases build_spec hT hcodes h.builder request with ⟨r', heap'', text, hbuild', -, hmakes, -⟩ | ⟨hbuild', -⟩
    · rw [hbuild] at hbuild'
      cases hbuild'
      obtain ⟨o, -, -, hplace, -⟩ := hmakes.sound.unpack
      refine ⟨o, hplace, ?_⟩
      rw [hmakes.made]
      exact hmakes.room o hplace
    · rw [hbuild] at hbuild'
      cases hbuild'

/-- In every run, a build makes what was asked for of all that was appended since the last reset: the
characters, or for the default their NFC. -/
theorem string_builder_builds (hT : T.WellFormed) (hcodes : CodePoints T) {bufferLength : Nat}
    (hbuffer : 0 < bufferLength) (garbage : Nat → Nat) (ops : List Op) :
    Option.Rel (World.Shows T) ((World.start bufferLength garbage).performAll T ops)
      (Texts.performAll T ⟨[], []⟩ ops) :=
  rel_imp (World.Holds.performAll hT hcodes ops (start_holds hbuffer garbage))
    fun _ _ h => h.shows hT hcodes

theorem angstromTables_codePoints : CodePoints angstromTables where
  char c c' h hne := by
    simp only [angstromTables] at h
    split at h
    · cases h
    · split at h
      · rename_i hc
        cases h
        subst hc
        exact ⟨by decide, by decide⟩
      · cases h
        exact absurd rfl hne
  string c c1 c2 h := by
    simp only [angstromTables] at h
    split at h
    · rename_i hc
      cases h
      subst hc
      exact ⟨by decide, by decide, by decide⟩
    · split at h <;> cases h

/-- A run with a string, a slice of it, characters that fill the buffer, and two builds. -/
def letters : List Op :=
  [.allocate ⟨encode (.ustring [0x41, 0x42] 1 true true), by decide, by decide, by decide⟩, .appendString 0, .appendChar 0x61,
    .appendChar 0x30A, .build .immutable, .slice 1 1 3, .appendString 2, .build .nfc]

theorem string_builder_builds_letters :
    Option.Rel (World.Shows angstromTables)
      ((World.start 2 fun _ => 0xFF).performAll angstromTables letters)
      (Texts.performAll angstromTables ⟨[], []⟩ letters) :=
  string_builder_builds Normalization.angstromTables_wellFormed angstromTables_codePoints (by decide) _ letters

/-- By default the NFC is built, which is not what was appended. -/
theorem string_builder_default_composes : ∃ w,
    (World.start 16 fun _ => 0).performAll angstromTables
        [.appendChar 0x41, .appendChar 0x30A, .build .nfc] = some w
      ∧ w.known.map w.heap.text = [[0xC5]] := by
  have hrun := World.Holds.performAll Normalization.angstromTables_wellFormed angstromTables_codePoints
    [.appendChar 0x41, .appendChar 0x30A, .build .nfc] (start_holds (show 0 < 16 by decide) fun _ => 0)
  have htexts : Texts.performAll angstromTables ⟨[], []⟩
      [.appendChar 0x41, .appendChar 0x30A, .build .nfc] = some ⟨[[0xC5]], [0x41, 0x30A]⟩ :=
    congrArg (fun text => some (Texts.mk [text] [0x41, 0x30A])) Normalization.angstrom_nfc
  rw [htexts] at hrun
  generalize hw : World.performAll _ _ _ = w at hrun
  cases hrun with
  | some h => exact ⟨_, rfl, (h.shows Normalization.angstromTables_wellFormed angstromTables_codePoints).known⟩

end MitScheme.StringBuilder
