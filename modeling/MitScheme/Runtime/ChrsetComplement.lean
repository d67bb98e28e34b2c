import MitScheme.Runtime.ChrsetProof

/-!
# The complement of a char-set

`inversion-list-invert` gives the empty list for the empty list, so the complement of the empty
char-set is empty. All other char-sets are inverted as they should be. The laws that follow from the
law of the complement hold where the empty char-set does not come in, and where it does no harm.
-/

namespace MitScheme.Chrset

open InversionList

variable {charSet a b : CharSet} {charSets : List CharSet} {cp : Nat}

/-- No code point is in the char-set. -/
def Empty (charSet : CharSet) : Prop := ∀ cp < charCodeLimit, codePointInCharSet cp charSet = false

/-- All code points are in the char-set. -/
def Full (charSet : CharSet) : Prop := ∀ cp < charCodeLimit, codePointInCharSet cp charSet = true

theorem charCodeLimit_pos : 0 < charCodeLimit := Nat.succ_pos _

theorem not_empty_iff : ¬ Empty charSet ↔ ∃ cp, cp < charCodeLimit
    ∧ codePointInCharSet cp charSet = true := by
  unfold Empty
  simp only [not_forall, Bool.not_eq_false, exists_prop]

theorem charSetToInversionList_eq_nil : charSetToInversionList charSet = [] ↔ Empty charSet := by
  refine ⟨fun h cp _ => ?_, fun h => ?_⟩
  · rw [codePointInCharSet_eq, h]
    rfl
  · refine (canonical_charSetToInversionList charSet).ext .nil fun cp hcp => ?_
    rw [← codePointInCharSet_eq, h cp hcp]
    rfl

theorem mem_charSetInvert (hcp : cp < charCodeLimit) :
    codePointInCharSet cp (charSetInvert charSet) = true
      ↔ ¬ Empty charSet ∧ codePointInCharSet cp charSet = false := by
  rw [charSetInvert, codePointInCharSet_inversionListToCharSet,
    (inversionListInvert_spec (canonical_charSetToInversionList charSet)).2 cp,
    ← charSetToInversionList_eq_nil, codePointInCharSet_eq, Bool.and_eq_true, decide_eq_true_eq,
    Bool.not_eq_true', and_iff_left hcp]

theorem empty_charSetInvert : Empty (charSetInvert charSet) ↔ Empty charSet ∨ Full charSet := by
  refine ⟨fun h => ?_, fun h cp hcp => ?_⟩
  · by_cases hempty : Empty charSet
    · exact .inl hempty
    · refine .inr fun cp hcp => ?_
      by_contra hout
      have hin := (mem_charSetInvert hcp).mpr ⟨hempty, Bool.eq_false_of_not_eq_true hout⟩
      exact Bool.false_ne_true ((h cp hcp).symm.trans hin)
  · refine Bool.eq_false_iff.mpr fun hin => ?_
    obtain ⟨hempty, hout⟩ := (mem_charSetInvert hcp).mp hin
    rcases h with h | h
    · exact hempty h
    · exact Bool.false_ne_true (hout.symm.trans (h cp hcp))

/-! ## The laws -/

theorem charSetInvert_iff :
    (∀ cp < charCodeLimit, codePointInCharSet cp (charSetInvert charSet) = true
        ↔ codePointInCharSet cp charSet = false)
      ↔ ¬ Empty charSet := by
  refine ⟨fun h hempty => ?_, fun h cp hcp => ?_⟩
  · have hin := (h 0 charCodeLimit_pos).mpr (hempty 0 charCodeLimit_pos)
    exact ((mem_charSetInvert charCodeLimit_pos).mp hin).1 hempty
  · exact (mem_charSetInvert hcp).trans (and_iff_right h)

theorem charSetEqual_singleton :
    charSetEqual a [b] = true
      ↔ ∀ cp < charCodeLimit, codePointInCharSet cp b = true ↔ codePointInCharSet cp a = true := by
  rw [charSetEqual_iff_members, List.forall_mem_singleton]
  exact forall₂_congr fun _ _ => Bool.eq_iff_iff

theorem charSetInvert_charSetInvert_iff :
    charSetEqual (charSetInvert (charSetInvert charSet)) [charSet] = true ↔ ¬ Full charSet := by
  rw [charSetEqual_singleton]
  refine ⟨fun h hfull => ?_, fun h cp hcp => ?_⟩
  · -- the inverse of the full char-set is empty, and so is the inverse of that
    have hin := (h 0 charCodeLimit_pos).mp (hfull 0 charCodeLimit_pos)
    exact ((mem_charSetInvert charCodeLimit_pos).mp hin).1 (empty_charSetInvert.mpr (.inr hfull))
  · rw [mem_charSetInvert hcp, empty_charSetInvert, ← Bool.not_eq_true, mem_charSetInvert hcp]
    by_cases hempty : Empty charSet
    · simp [hempty, hempty cp hcp]
    · simp [hempty, h]

theorem not_empty_charSetUnion :
    ¬ Empty (charSetUnion charSets) ↔ ∃ charSet ∈ charSets, ¬ Empty charSet := by
  simp only [not_empty_iff]
  refine ⟨fun ⟨cp, hcp, hin⟩ => ?_, fun ⟨charSet, hmem, cp, hcp, hin⟩ => ⟨cp, hcp, ?_⟩⟩
  · obtain ⟨charSet, hmem, hin⟩ := (mem_charSetUnion hcp).mp hin
    exact ⟨charSet, hmem, cp, hcp, hin⟩
  · exact (mem_charSetUnion hcp).mpr ⟨charSet, hmem, hin⟩

theorem mem_charSetIntersection_charSetInvert (hcp : cp < charCodeLimit) :
    codePointInCharSet cp (charSetIntersection (charSets.map charSetInvert)) = true
      ↔ (∀ charSet ∈ charSets, ¬ Empty charSet)
        ∧ ¬ ∃ charSet ∈ charSets, codePointInCharSet cp charSet = true := by
  rw [mem_charSetIntersection hcp, List.forall_mem_map]
  simp only [mem_charSetInvert hcp, not_exists, not_and, Bool.not_eq_true]
  exact ⟨fun h => ⟨fun charSet hmem => (h charSet hmem).1, fun charSet hmem => (h charSet hmem).2⟩,
    fun h charSet hmem => ⟨h.1 charSet hmem, h.2 charSet hmem⟩⟩

theorem charSetInvert_charSetUnion_iff :
    charSetEqual (charSetInvert (charSetUnion charSets))
        [charSetIntersection (charSets.map charSetInvert)] = true
      ↔ (charSets ≠ []
          ∧ ((∀ charSet ∈ charSets, Empty charSet) ∨ ∀ charSet ∈ charSets, ¬ Empty charSet))
        ∨ ∀ cp < charCodeLimit, ∃ charSet ∈ charSets, codePointInCharSet cp charSet = true := by
  have hmem : ∀ cp < charCodeLimit,
      (codePointInCharSet cp (charSetInvert (charSetUnion charSets)) = true
        ↔ (∃ charSet ∈ charSets, ¬ Empty charSet)
          ∧ ¬ ∃ charSet ∈ charSets, codePointInCharSet cp charSet = true) := by
    intro cp hcp
    rw [mem_charSetInvert hcp, not_empty_charSetUnion, ← Bool.not_eq_true, mem_charSetUnion hcp]
  rw [charSetEqual_singleton]
  refine ⟨fun h => ?_, fun h cp hcp => ?_⟩
  · by_cases hall : ∀ cp < charCodeLimit, ∃ charSet ∈ charSets, codePointInCharSet cp charSet = true
    · exact .inr hall
    · -- at a code point that is in none of the char-sets the two sides tell which of them are empty
      obtain ⟨cp, hcp, hnone⟩ : ∃ cp, ∃ _ : cp < charCodeLimit,
          ¬ ∃ charSet ∈ charSets, codePointInCharSet cp charSet = true := by
        simpa only [not_forall] using hall
      have heq := h cp hcp
      rw [hmem cp hcp, mem_charSetIntersection_charSetInvert hcp, and_iff_left hnone,
        and_iff_left hnone] at heq
      refine .inl ⟨fun hnil => ?_, ?_⟩
      · subst hnil
        obtain ⟨charSet, hcharSet, -⟩ := heq.mp fun charSet hcharSet => nomatch hcharSet
        cases hcharSet
      · by_cases hsome : ∃ charSet ∈ charSets, ¬ Empty charSet
        · exact .inr (heq.mpr hsome)
        · refine .inl fun charSet hcharSet => ?_
          by_contra hempty
          exact hsome ⟨charSet, hcharSet, hempty⟩
  · rw [hmem cp hcp, mem_charSetIntersection_charSetInvert hcp]
    refine and_congr_left fun hnone => ?_
    rcases h with ⟨hne, h⟩ | h
    · obtain ⟨charSet, hcharSet⟩ := List.exists_mem_of_ne_nil charSets hne
      rcases h with h | h
      · exact ⟨fun hall => (hall charSet hcharSet (h charSet hcharSet)).elim,
          fun ⟨charSet, hcharSet, hempty⟩ => (hempty (h charSet hcharSet)).elim⟩
      · exact ⟨fun _ => ⟨charSet, hcharSet, h charSet hcharSet⟩, fun _ => h⟩
    · exact (hnone (h cp hcp)).elim

theorem charSetInvert_charSetIntersection_iff :
    charSetEqual (charSetInvert (charSetIntersection charSets))
        [charSetUnion (charSets.map charSetInvert)] = true
      ↔ (∃ cp < charCodeLimit, ∀ charSet ∈ charSets, codePointInCharSet cp charSet = true)
        ∨ ∀ charSet ∈ charSets, Empty charSet ∨ Full charSet := by
  have hunion : ∀ cp < charCodeLimit,
      (codePointInCharSet cp (charSetUnion (charSets.map charSetInvert)) = true
        ↔ ∃ charSet ∈ charSets, ¬ Empty charSet ∧ codePointInCharSet cp charSet = false) := by
    intro cp hcp
    rw [mem_charSetUnion hcp]
    simp only [List.mem_map, exists_exists_and_eq_and, mem_charSetInvert hcp]
  have hnotEmpty : ¬ Empty (charSetIntersection charSets)
      ↔ ∃ cp < charCodeLimit, ∀ charSet ∈ charSets, codePointInCharSet cp charSet = true := by
    rw [not_empty_iff]
    exact exists_congr fun cp => and_congr_right fun hcp => mem_charSetIntersection hcp
  rw [charSetEqual_singleton, ← hnotEmpty]
  by_cases hempty : Empty (charSetIntersection charSets)
  · -- the inverse of the intersection is empty, so none of the inverses may have anything
    simp only [hempty, not_true_eq_false, false_or]
    have hnone : ∀ cp < charCodeLimit,
        ¬ codePointInCharSet cp (charSetInvert (charSetIntersection charSets)) = true :=
      fun cp hcp hin => ((mem_charSetInvert hcp).mp hin).1 hempty
    refine ⟨fun h charSet hmem => ?_, fun h cp hcp => ?_⟩
    · refine empty_charSetInvert.mp fun cp hcp => Bool.eq_false_iff.mpr fun hin => ?_
      exact hnone cp hcp ((h cp hcp).mp
        ((hunion cp hcp).mpr ⟨charSet, hmem, (mem_charSetInvert hcp).mp hin⟩))
    · rw [iff_false_right (hnone cp hcp), hunion cp hcp]
      intro hin
      obtain ⟨charSet, hmem, hne, hout⟩ := hin
      rcases h charSet hmem with h | h
      · exact hne h
      · exact Bool.false_ne_true (hout.symm.trans (h cp hcp))
  · simp only [hempty, not_false_eq_true, true_or, iff_true]
    obtain ⟨cp', hcp', hall⟩ := hnotEmpty.mp hempty
    intro cp hcp
    rw [mem_charSetInvert hcp, and_iff_right hempty, hunion cp hcp, ← Bool.not_eq_true,
      mem_charSetIntersection hcp]
    refine ⟨fun ⟨charSet, hmem, _, hout⟩ h => ?_, fun h => ?_⟩
    · exact Bool.false_ne_true (hout.symm.trans (h charSet hmem))
    · obtain ⟨charSet, hmem, hout⟩ : ∃ charSet, ∃ _ : charSet ∈ charSets,
          ¬ codePointInCharSet cp charSet = true := by
        simpa only [not_forall] using h
      exact ⟨charSet, hmem, not_empty_iff.mpr ⟨cp', hcp', hall charSet hmem⟩,
        Bool.eq_false_of_not_eq_true hout⟩

/-- Exactly when a char-set is inverted, inverting it twice gives it back, and the complements of a
union and of an intersection are the intersection and the union of the complements. -/
theorem charSetInvert_laws_iff (charSet : CharSet) (charSets : List CharSet) :
    ((∀ cp < charCodeLimit, codePointInCharSet cp (charSetInvert charSet) = true
          ↔ codePointInCharSet cp charSet = false)
        ↔ ¬ Empty charSet)
      ∧ (charSetEqual (charSetInvert (charSetInvert charSet)) [charSet] = true ↔ ¬ Full charSet)
      ∧ (charSetEqual (charSetInvert (charSetUnion charSets))
            [charSetIntersection (charSets.map charSetInvert)] = true
          ↔ (charSets ≠ []
              ∧ ((∀ charSet ∈ charSets, Empty charSet) ∨ ∀ charSet ∈ charSets, ¬ Empty charSet))
            ∨ ∀ cp < charCodeLimit, ∃ charSet ∈ charSets, codePointInCharSet cp charSet = true)
      ∧ (charSetEqual (charSetInvert (charSetIntersection charSets))
            [charSetUnion (charSets.map charSetInvert)] = true
          ↔ (∃ cp < charCodeLimit, ∀ charSet ∈ charSets, codePointInCharSet cp charSet = true)
            ∨ ∀ charSet ∈ charSets, Empty charSet ∨ Full charSet) :=
  ⟨charSetInvert_iff, charSetInvert_charSetInvert_iff, charSetInvert_charSetUnion_iff,
    charSetInvert_charSetIntersection_iff⟩

/-- The first code point is neither in the empty char-set nor in its complement. -/
theorem empty_not_inverted :
    ¬ (codePointInCharSet 0 (charSetInvert (charSetUnion [])) = true
      ↔ ¬ codePointInCharSet 0 (charSetUnion []) = true) := by
  decide +kernel

/-! ## Nested operations -/

/-- What a program can make of char-sets. -/
inductive Expression where
  | of (charSet : CharSet)
  | union (es : List Expression)
  | intersection (es : List Expression)
  | difference (e : Expression) (es : List Expression)
  | invert (e : Expression)

namespace Expression

def eval : Expression → CharSet
  | of charSet => charSet
  | union es => charSetUnion (es.map eval)
  | intersection es => charSetIntersection (es.map eval)
  | difference e es => charSetDifference e.eval (es.map eval)
  | invert e => charSetInvert e.eval

/-- Membership by the laws of sets, but that nothing is in the complement of the empty set. -/
def Has : Expression → Nat → Prop
  | of charSet, cp => codePointInCharSet cp charSet = true
  | union es, cp => ∃ e, ∃ _ : e ∈ es, e.Has cp
  | intersection es, cp => ∀ e ∈ es, e.Has cp
  | difference e es, cp => e.Has cp ∧ ∀ e' ∈ es, ¬ e'.Has cp
  | invert e, cp => (∃ cp' < charCodeLimit, e.Has cp') ∧ ¬ e.Has cp

theorem mem_eval {cp : Nat} (hcp : cp < charCodeLimit) (e : Expression) :
    codePointInCharSet cp e.eval = true ↔ e.Has cp := by
  match e with
  | of charSet => rw [eval, Has]
  | union es =>
      rw [eval, Has, mem_charSetUnion hcp]
      simp only [List.mem_map, exists_exists_and_eq_and, exists_prop]
      exact exists_congr fun e => and_congr_right fun _ => mem_eval hcp e
  | intersection es =>
      rw [eval, Has, mem_charSetIntersection hcp, List.forall_mem_map]
      exact forall₂_congr fun e _ => mem_eval hcp e
  | difference e es =>
      rw [eval, Has, mem_charSetDifference hcp, mem_eval hcp e, List.forall_mem_map]
      refine and_congr_right fun _ => forall₂_congr fun e' _ => ?_
      rw [← mem_eval hcp e', Bool.not_eq_true]
  | invert e =>
      -- the operand is asked about all code points, since it may be empty
      rw [eval, Has, mem_charSetInvert hcp, not_empty_iff, ← mem_eval hcp e, Bool.not_eq_true]
      exact and_congr_left' (exists_congr fun _ => and_congr_right fun h => mem_eval h e)

/-- `char-set=?` compares what two nests of operations give by their members, whatever the order in
which the ranges have been put together. -/
theorem charSetEqual_eval_iff (a b : Expression) :
    charSetEqual a.eval [b.eval] = true ↔ ∀ cp < charCodeLimit, (b.Has cp ↔ a.Has cp) := by
  rw [charSetEqual_iff_members, List.forall_mem_singleton]
  refine forall₂_congr fun cp hcp => ?_
  rw [Bool.eq_iff_iff, mem_eval hcp, mem_eval hcp]

end Expression

end MitScheme.Chrset
