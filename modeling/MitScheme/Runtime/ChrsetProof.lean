import MitScheme.Runtime.Chrset

/-!
# Char-sets are sets of code points

A code point is in a char-set exactly if it is inside of its inversion list. From that, and from
what the operations do to inversion lists, follow the laws of union, intersection and difference,
and when those of the complement hold: all but the empty char-set are inverted.
-/

namespace MitScheme.Chrset

open InversionList

variable {charSet a b : CharSet} {charSets : List CharSet} {ilist : List Nat} {cp : Nat}

theorem codePointInCharSet_eq (charSet : CharSet) (cp : Nat) :
    codePointInCharSet cp charSet = inside (charSetToInversionList charSet) cp := by
  obtain ⟨ilist, h, hlow, hhigh⟩ := charSet.constructed
  have hmod := chooseLowLimit_mod ilist
  rw [codePointInCharSet, charSetToInversionList, hlow, hhigh, codePointInBytes_eq h hmod,
    bytesToInversionList_eq h hmod]

@[simp] theorem codePointInCharSet_inversionListToCharSet (h : Canonical charCodeLimit ilist) :
    codePointInCharSet cp (inversionListToCharSet ilist h) = inside ilist cp := by
  rw [codePointInCharSet_eq, charSetToInversionList_inversionListToCharSet]

theorem codePointInCharSet_iff_covers :
    codePointInCharSet cp charSet = true ↔ Covers (charSetToInversionList charSet) cp := by
  rw [codePointInCharSet_eq, (canonical_charSetToInversionList charSet).covers_iff]

theorem CharSet.eq_of_charSetToInversionList_eq
    (h : charSetToInversionList a = charSetToInversionList b) : a = b := by
  obtain ⟨alow, ahigh, ilist, hilist, rfl, rfl⟩ := a
  obtain ⟨blow, bhigh, ilist', hilist', rfl, rfl⟩ := b
  have heq : ilist = ilist' := by
    rw [← charSetToInversionList_inversionListToCharSet hilist,
      ← charSetToInversionList_inversionListToCharSet hilist']
    exact h
  subst heq
  rfl

theorem CharSet.ext_iff_members :
    a = b ↔ ∀ cp < charCodeLimit, codePointInCharSet cp a = codePointInCharSet cp b := by
  refine ⟨fun h _ _ => h ▸ rfl, fun h => CharSet.eq_of_charSetToInversionList_eq ?_⟩
  refine (canonical_charSetToInversionList a).ext (canonical_charSetToInversionList b) ?_
  intro cp hcp
  rw [← codePointInCharSet_eq, ← codePointInCharSet_eq]
  exact h cp hcp

theorem charSetEqual_iff_eq : charSetEqual a charSets = true ↔ ∀ b ∈ charSets, b = a := by
  rw [charSetEqual, List.all_eq_true]
  refine forall₂_congr fun b _ => ?_
  rw [Bool.and_eq_true, beq_iff_eq, beq_iff_eq]
  cases a
  cases b
  simp only [CharSet.mk.injEq]

theorem charSetEqual_iff_members :
    charSetEqual a charSets = true
      ↔ ∀ b ∈ charSets, ∀ cp < charCodeLimit, codePointInCharSet cp b = codePointInCharSet cp a := by
  rw [charSetEqual_iff_eq]
  exact forall₂_congr fun b _ => CharSet.ext_iff_members

/-! ## Union, intersection and difference -/

section Combinations

variable {combine : Bool → Bool → Bool} {ilists : List (List Nat)} {first default : List Nat}

theorem inside_combiner {il1 il2 : List Nat} (h1 : Canonical charCodeLimit il1)
    (h2 : Canonical charCodeLimit il2) (hcp : cp < charCodeLimit) :
    inside (makeInversionListCombiner combine il1 il2) cp
      = combine (inside il1 cp) (inside il2 cp) := by
  rw [(makeInversionListCombiner_spec h1 h2).2 cp, decide_eq_true hcp, Bool.true_and]

theorem inside_foldl_union (hfirst : Canonical charCodeLimit first)
    (h : ∀ ilist ∈ ilists, Canonical charCodeLimit ilist) (hcp : cp < charCodeLimit) :
    inside (ilists.foldl (fun state item => inversionListUnion item state) first) cp = true
      ↔ inside first cp = true ∨ ∃ ilist ∈ ilists, inside ilist cp = true := by
  induction ilists generalizing first with
  | nil => simp
  | cons ilist ilists ih =>
      have hilist := h ilist List.mem_cons_self
      rw [List.foldl_cons, ih (canonical_inversionListUnion hilist hfirst)
        fun ilist' hilist' => h ilist' (List.mem_cons_of_mem ilist hilist'), inversionListUnion,
        inside_combiner hilist hfirst hcp, Bool.or_eq_true, List.exists_mem_cons_iff,
        or_comm (a := inside ilist cp = true), or_assoc]

theorem inside_foldl_intersection (hfirst : Canonical charCodeLimit first)
    (h : ∀ ilist ∈ ilists, Canonical charCodeLimit ilist) (hcp : cp < charCodeLimit) :
    inside (ilists.foldl (fun state item => inversionListIntersection item state) first) cp = true
      ↔ inside first cp = true ∧ ∀ ilist ∈ ilists, inside ilist cp = true := by
  induction ilists generalizing first with
  | nil => simp
  | cons ilist ilists ih =>
      have hilist := h ilist List.mem_cons_self
      rw [List.foldl_cons, ih (canonical_inversionListIntersection hilist hfirst)
        fun ilist' hilist' => h ilist' (List.mem_cons_of_mem ilist hilist'),
        inversionListIntersection, inside_combiner hilist hfirst hcp, Bool.and_eq_true,
        List.forall_mem_cons, and_comm (a := inside ilist cp = true), and_assoc]

theorem inside_foldl_difference (hfirst : Canonical charCodeLimit first)
    (h : ∀ ilist ∈ ilists, Canonical charCodeLimit ilist) (hcp : cp < charCodeLimit) :
    inside (ilists.foldl inversionListDifference first) cp = true
      ↔ inside first cp = true ∧ ∀ ilist ∈ ilists, inside ilist cp = false := by
  induction ilists generalizing first with
  | nil => simp
  | cons ilist ilists ih =>
      have hilist := h ilist List.mem_cons_self
      rw [List.foldl_cons, ih (canonical_inversionListDifference hfirst hilist)
        fun ilist' hilist' => h ilist' (List.mem_cons_of_mem ilist hilist'),
        inversionListDifference, inside_combiner hfirst hilist hcp, Bool.and_eq_true,
        List.forall_mem_cons, Bool.not_eq_true', and_assoc]

end Combinations

theorem exists_mem_map_inside :
    (∃ ilist ∈ charSets.map charSetToInversionList, inside ilist cp = true)
      ↔ ∃ charSet ∈ charSets, codePointInCharSet cp charSet = true := by
  simp [codePointInCharSet_eq]

theorem mem_charSetUnion (hcp : cp < charCodeLimit) :
    codePointInCharSet cp (charSetUnion charSets) = true
      ↔ ∃ charSet ∈ charSets, codePointInCharSet cp charSet = true := by
  rw [charSetUnion, codePointInCharSet_inversionListToCharSet, ← exists_mem_map_inside]
  cases charSets with
  | nil => simp [reduce]
  | cons charSet charSets =>
      rw [List.map_cons, List.exists_mem_cons_iff]
      exact inside_foldl_union (canonical_charSetToInversionList charSet)
        (fun _ => canonical_of_mem_map) hcp

theorem mem_charSetIntersection (hcp : cp < charCodeLimit) :
    codePointInCharSet cp (charSetIntersection charSets) = true
      ↔ ∀ charSet ∈ charSets, codePointInCharSet cp charSet = true := by
  rw [charSetIntersection, codePointInCharSet_inversionListToCharSet]
  cases charSets with
  | nil => simp [reduce, inside_cons, Nat.not_le.mpr hcp]
  | cons charSet charSets =>
      rw [List.map_cons, List.forall_mem_cons, codePointInCharSet_eq]
      refine (inside_foldl_intersection (canonical_charSetToInversionList charSet)
        (fun _ => canonical_of_mem_map) hcp).trans (and_congr_right fun _ => ?_)
      simp only [List.forall_mem_map, codePointInCharSet_eq]

theorem mem_charSetDifference (hcp : cp < charCodeLimit) :
    codePointInCharSet cp (charSetDifference charSet charSets) = true
      ↔ codePointInCharSet cp charSet = true
        ∧ ∀ charSet' ∈ charSets, codePointInCharSet cp charSet' = false := by
  rw [charSetDifference, codePointInCharSet_inversionListToCharSet,
    inside_foldl_difference (canonical_charSetToInversionList charSet)
      (fun _ => canonical_of_mem_map) hcp]
  simp only [List.forall_mem_map, codePointInCharSet_eq]

/-! ## Constructors -/

section Names

variable (nameToCharSet : CharSetName → CharSet)

/-- The code points that an element of a code-point list stands for. -/
def CplElement.Has (cp : Nat) : CplElement → Prop
  | .range r _ => r.Has cp
  | .char c _ => cp = c
  | .string cs _ => cp ∈ cs
  | .charSet set => codePointInCharSet cp set = true
  | .name n => codePointInCharSet cp (nameToCharSet n) = true

theorem has_codePoint {char : Nat} : (Range.codePoint char).Has cp ↔ cp = char := by
  unfold Range.Has Range.start Range.stop
  dsimp only
  omega

theorem exists_cplElementToRanges {element : CplElement} {ranges : List CodePointRange}
    (h : cplElementToRanges element = some ranges) :
    (∃ range ∈ ranges, range.val.Has cp) ↔ element.Has nameToCharSet cp := by
  cases element with
  | range range isRange =>
      cases h
      simp [CplElement.Has]
  | char char bitless =>
      cases h
      simp [CplElement.Has, has_codePoint]
  | string chars bitless =>
      cases h
      refine ⟨fun ⟨range, hrange, hcp⟩ => ?_, fun hcp => ⟨⟨.codePoint cp, bitless cp hcp⟩, ?_, ?_⟩⟩
      · obtain ⟨⟨char, hchar⟩, -, rfl⟩ := List.mem_map.mp hrange
        rw [has_codePoint] at hcp
        exact hcp ▸ hchar
      · exact List.mem_map.mpr ⟨⟨cp, hcp⟩, List.mem_attach _ _, rfl⟩
      · exact has_codePoint.mpr rfl
  | charSet charSet => cases h
  | name name => cases h

theorem mem_rangesToCharSet {ranges : List CodePointRange} :
    codePointInCharSet cp (rangesToCharSet ranges) = true
      ↔ ∃ range ∈ ranges, range.val.Has cp := by
  have hranges : ∀ range ∈ ranges.map Subtype.val, range.IsRange := fun _ h => by
    obtain ⟨range, -, rfl⟩ := List.mem_map.mp h
    exact range.property
  obtain ⟨hcanonical, hcovers⟩ := rangesToInversionList_spec hranges
  rw [rangesToCharSet, codePointInCharSet_inversionListToCharSet, ← hcanonical.covers_iff,
    hcovers cp]
  simp

theorem cplToCharSetsLoop_ranges {element : CplElement} {ranges' : List CodePointRange}
    (h : cplElementToRanges element = some ranges') (cpl : List CplElement)
    (ranges : List CodePointRange) (charSets : List CharSet) :
    cplToCharSetsLoop nameToCharSet (element :: cpl) ranges charSets
      = cplToCharSetsLoop nameToCharSet cpl (ranges' ++ ranges) charSets := by
  rw [cplToCharSetsLoop.eq_def]
  dsimp only
  rw [h]

theorem exists_cplToCharSetsLoop (cpl : List CplElement) (ranges : List CodePointRange)
    (charSets : List CharSet) :
    (∃ charSet ∈ cplToCharSetsLoop nameToCharSet cpl ranges charSets,
        codePointInCharSet cp charSet = true)
      ↔ (∃ element ∈ cpl, element.Has nameToCharSet cp) ∨ (∃ range ∈ ranges, range.val.Has cp)
        ∨ ∃ charSet ∈ charSets, codePointInCharSet cp charSet = true := by
  induction cpl generalizing ranges charSets with
  | nil =>
      rw [cplToCharSetsLoop, List.exists_mem_cons_iff, mem_rangesToCharSet]
      simp
  | cons element cpl ih =>
      rw [List.exists_mem_cons_iff]
      cases hranges : cplElementToRanges element with
      | some ranges' =>
          rw [cplToCharSetsLoop_ranges nameToCharSet hranges, ih,
            ← exists_cplElementToRanges nameToCharSet hranges]
          simp only [List.mem_append, or_and_right, exists_or]
          simp only [or_assoc, or_left_comm]
      | none =>
          cases element with
          | charSet set =>
              refine (ih ranges (set :: charSets)).trans ?_
              rw [List.exists_mem_cons_iff, CplElement.Has]
              simp only [or_assoc, or_left_comm]
          | name n =>
              refine (ih ranges (nameToCharSet n :: charSets)).trans ?_
              rw [List.exists_mem_cons_iff, CplElement.Has]
              simp only [or_assoc, or_left_comm]
          | range r isRange | char c bitless | string cs bitless => cases hranges

theorem mem_charSet {cpl : List CplElement} (hcp : cp < charCodeLimit) :
    codePointInCharSet cp (charSetStar nameToCharSet cpl) = true
      ↔ ∃ element ∈ cpl, element.Has nameToCharSet cp := by
  rw [charSetStar, mem_charSetUnion hcp, cplToCharSets, exists_cplToCharSetsLoop]
  simp

/-- The laws of membership in char-sets, whatever they are made from. -/
theorem charSet_membership :
    (∀ charSet, ∀ cp < charCodeLimit, codePointInCharSet cp charSet = true
        ↔ Covers (charSetToInversionList charSet) cp)
      ∧ (∀ charSet char, charInSet char charSet = true
        ↔ bitlessChar char = true ∧ Covers (charSetToInversionList charSet) char)
      ∧ (∀ cpl, ∀ cp < charCodeLimit, codePointInCharSet cp (charSetStar nameToCharSet cpl) = true
        ↔ ∃ element ∈ cpl, element.Has nameToCharSet cp)
      ∧ (∀ procedure, ∀ cp < charCodeLimit, codePointInCharSet cp (computeCharSet procedure) = true
        ↔ procedure cp = true ∧ ¬ (0xD800 ≤ cp ∧ cp < 0xE000))
      ∧ (∀ charSets, ∀ cp < charCodeLimit, codePointInCharSet cp (charSetUnion charSets) = true
        ↔ ∃ charSet ∈ charSets, codePointInCharSet cp charSet = true)
      ∧ (∀ charSets, ∀ cp < charCodeLimit,
        codePointInCharSet cp (charSetIntersection charSets) = true
          ↔ ∀ charSet ∈ charSets, codePointInCharSet cp charSet = true)
      ∧ (∀ charSet charSets, ∀ cp < charCodeLimit,
        codePointInCharSet cp (charSetDifference charSet charSets) = true
          ↔ codePointInCharSet cp charSet = true
            ∧ ∀ charSet' ∈ charSets, codePointInCharSet cp charSet' = false)
      ∧ (∀ ilist (h : Canonical charCodeLimit ilist),
        charSetToInversionList (inversionListToCharSet ilist h) = ilist)
      ∧ ∀ charSet charSets, charSetEqual charSet charSets = true
        ↔ ∀ charSet' ∈ charSets, ∀ cp < charCodeLimit,
          codePointInCharSet cp charSet' = codePointInCharSet cp charSet := by
  refine ⟨fun _ _ _ => codePointInCharSet_iff_covers, fun charSet char => ?_,
    fun _ _ hcp => mem_charSet nameToCharSet hcp, fun procedure cp hcp => ?_,
    fun _ _ hcp => mem_charSetUnion hcp, fun _ _ hcp => mem_charSetIntersection hcp,
    fun _ _ _ hcp => mem_charSetDifference hcp,
    fun _ h => charSetToInversionList_inversionListToCharSet h, fun _ _ => charSetEqual_iff_members⟩
  · rw [charInSet, Bool.and_eq_true, codePointInCharSet_iff_covers]
  · rw [computeCharSet, codePointInCharSet_inversionListToCharSet,
      (computeInversionList_spec procedure).2 cp, Bool.and_eq_true, decide_eq_true_eq, and_comm]
    exact and_congr_right fun _ => and_iff_right hcp

end Names

end MitScheme.Chrset
