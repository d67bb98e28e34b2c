import MitScheme.Runtime.Strings

/-!
# What is found

The pattern is found at the indices where the text has it, from either end of the range.
-/

namespace MitScheme.Strings

open List
open Normalization (angstromTables stringInNfc)

open Normalization (Str Tables)

variable {T : Tables} {pattern text : Str}

/-- The text has the pattern at an index. -/
def HasAt (pattern text : List Nat) (index : Nat) : Prop := slice text index (index + pattern.length) = pattern

instance (pattern text : List Nat) (index : Nat) : Decidable (HasAt pattern text index) :=
  inferInstanceAs (Decidable (slice text index (index + pattern.length) = pattern))

/-- Where the pattern occurs in a part of the text. -/
def occurrences (pattern text : List Nat) (start stop : Nat) : Set Nat :=
  { index | start ≤ index ∧ index + pattern.length ≤ stop ∧ HasAt pattern text index }

/-- Where the pattern occurs from one index on to another. -/
def candidates (pattern text : List Nat) (tstart : Nat) (tlast : Int) : Set Nat :=
  { index | tstart ≤ index ∧ (index : Int) ≤ tlast ∧ HasAt pattern text index }

theorem occurrences_eq_candidates (pattern text : List Nat) (start stop : Nat) :
    occurrences pattern text start stop = candidates pattern text start (stop - pattern.length) := by
  ext index
  refine and_congr_right fun _ => and_congr_left fun _ => ?_
  omega

variable {tlast : Int} {tstart : Nat}

theorem candidates_empty {pattern text : List Nat} (h : ¬tlast ≥ tstart) :
    candidates pattern text tstart tlast = ∅ := by
  refine Set.eq_empty_iff_forall_notMem.mpr fun index hi => ?_
  have hfirst := hi.1
  have hlast := hi.2.1
  omega

theorem candidates_start {pattern text : List Nat} (h : ¬HasAt pattern text tstart) :
    candidates pattern text tstart tlast = candidates pattern text (tstart + 1) tlast := by
  ext index
  refine ⟨fun hi => ⟨Nat.lt_of_le_of_ne hi.1 ?_, hi.2⟩, fun hi => ⟨Nat.le_of_succ_le hi.1, hi.2⟩⟩
  rintro rfl
  exact h hi.2.2

theorem mem_candidates_last {pattern text : List Nat} {index : Nat} (h : tlast ≥ tstart) :
    index ∈ candidates pattern text tstart tlast
      ↔ index ∈ candidates pattern text tstart (tlast - 1)
        ∨ (index = tlast.toNat ∧ HasAt pattern text tlast.toNat) := by
  constructor
  · intro hi
    by_cases hlast : (index : Int) ≤ tlast - 1
    · exact .inl ⟨hi.1, hlast, hi.2.2⟩
    · have heq : index = tlast.toNat := by
        have := hi.2.1
        omega
      subst heq
      exact .inr ⟨rfl, hi.2.2⟩
  · intro hi
    rcases hi with hi | ⟨rfl, hhas⟩
    · exact ⟨hi.1, by have := hi.2.1; omega, hi.2.2⟩
    · exact ⟨by omega, by omega, hhas⟩

theorem matchLoop_spec (hpattern : pattern.Valid T) (htext : text.Valid T) (pi ti : Nat)
    (hroom : ti + (stringLength pattern - pi) ≤ stringLength text) :
    matchLoop pattern (stringLength pattern) text pi ti
      = .ok (if slice text.chars ti (ti + (stringLength pattern - pi)) = pattern.chars.drop pi
          then some (ti + (stringLength pattern - pi)) else none) := by
  induction hleft : stringLength pattern - pi generalizing pi ti with
  | zero =>
      have hdrop : pattern.chars.drop pi = [] := drop_eq_nil_of_le (by rw [length_chars hpattern]; omega)
      rw [matchLoop, if_neg (by omega), hdrop, Nat.add_zero, slice_self]
      rfl
  | succ left ih =>
      have hpi : pi < pattern.chars.length := by
        rw [length_chars hpattern]
        omega
      have hti : ti < text.chars.length := by
        rw [length_chars htext]
        omega
      have hslice : slice text.chars ti (ti + (left + 1)) = text.chars[ti] :: slice text.chars (ti + 1) (ti + 1 + left) := by
        rw [slice_cons (List.getElem?_eq_getElem hti) (by omega), Nat.add_assoc, Nat.add_comm 1]
      rw [matchLoop, if_pos (by omega), stringRef_eq hpattern (by omega), stringRef_eq htext (by omega),
        getD_eq_getElem _ _ hpi, getD_eq_getElem _ _ hti, hslice, drop_eq_getElem_cons hpi]
      change (if pattern.chars[pi] = text.chars[ti] then _ else _) = _
      by_cases heq : pattern.chars[pi] = text.chars[ti]
      · rw [if_pos heq, ih (pi + 1) (ti + 1) (by omega) (by omega)]
        simp only [heq, List.cons.injEq, true_and]
        rw [Nat.add_assoc, Nat.add_comm 1]
      · rw [if_neg heq, if_neg fun h => heq (List.cons.inj h).1.symm]
        rfl

theorem matchLoop_zero (hpattern : pattern.Valid T) (htext : text.Valid T) {ti : Nat}
    (hroom : ti + stringLength pattern ≤ stringLength text) :
    matchLoop pattern (stringLength pattern) text 0 ti
      = .ok (if HasAt pattern.chars text.chars ti then some (ti + stringLength pattern) else none) := by
  have h := matchLoop_spec hpattern htext 0 ti hroom
  rw [Nat.sub_zero, drop_zero] at h
  refine h.trans (congrArg Except.ok (if_congr ?_ rfl rfl))
  rw [HasAt, length_chars hpattern]

/-! ## The three loops -/

/-- What a forward search answers. -/
def FoundFirst (found : Set Nat) : Option Nat → Prop
  | some index => IsLeast found index
  | none => found = ∅

/-- What a backward search answers: where the last occurrence ends. -/
def FoundLast (found : Set Nat) (length : Nat) : Option Nat → Prop
  | some stop => ∃ index, IsGreatest found index ∧ stop = index + length
  | none => found = ∅

/-- What a search for all occurrences answers. -/
def FoundAll (found : Set Nat) (indices : List Nat) : Prop :=
  indices.Pairwise (· < ·) ∧ ∀ index, index ∈ indices ↔ index ∈ found

theorem dumbStringSearchForward_spec (hpattern : pattern.Valid T) (htext : text.Valid T)
    (hlast : tlast + stringLength pattern ≤ stringLength text) (tstart : Nat) :
    ∃ answer, dumbStringSearchForward pattern (stringLength pattern) text tstart tlast = .ok answer
      ∧ FoundFirst (candidates pattern.chars text.chars tstart tlast) answer := by
  induction hleft : (tlast + 1 - tstart).toNat generalizing tstart with
  | zero =>
      rw [dumbStringSearchForward, if_neg (by omega)]
      exact ⟨none, rfl, candidates_empty (by omega)⟩
  | succ left ih =>
      rw [dumbStringSearchForward, if_pos (by omega), matchLoop_zero hpattern htext (by omega)]
      by_cases hhas : HasAt pattern.chars text.chars tstart
      · rw [if_pos hhas]
        exact ⟨some tstart, rfl, ⟨Nat.le_refl _, by omega, hhas⟩, fun index hi => hi.1⟩
      · rw [if_neg hhas, candidates_start hhas]
        exact ih (tstart + 1) (by omega)

theorem dumbStringSearchBackward_spec (hpattern : pattern.Valid T) (htext : text.Valid T)
    (hlast : tlast + stringLength pattern ≤ stringLength text) (tstart : Nat) :
    ∃ answer, dumbStringSearchBackward pattern (stringLength pattern) text tstart tlast = .ok answer
      ∧ FoundLast (candidates pattern.chars text.chars tstart tlast) (stringLength pattern) answer := by
  induction hleft : (tlast + 1 - tstart).toNat generalizing tlast with
  | zero =>
      rw [dumbStringSearchBackward, if_neg (by omega)]
      exact ⟨none, rfl, candidates_empty (by omega)⟩
  | succ left ih =>
      have hge : tlast ≥ tstart := by omega
      rw [dumbStringSearchBackward, if_pos hge, matchLoop_zero hpattern htext (by omega)]
      by_cases hhas : HasAt pattern.chars text.chars tlast.toNat
      · rw [if_pos hhas]
        refine ⟨some _, rfl, tlast.toNat, ⟨(mem_candidates_last hge).mpr (.inr ⟨rfl, hhas⟩), fun index hi => ?_⟩, rfl⟩
        have := hi.2.1
        omega
      · have hsame : candidates pattern.chars text.chars tstart tlast
            = candidates pattern.chars text.chars tstart (tlast - 1) := by
          ext index
          rw [mem_candidates_last hge]
          exact or_iff_left fun h => hhas h.2
        rw [if_neg hhas, hsame]
        exact ih (by omega) (by omega)

theorem findMatches_spec (hpattern : pattern.Valid T) (htext : text.Valid T)
    (hlast : tlast + stringLength pattern ≤ stringLength text) (tstart : Nat) (found : List Nat) :
    ∃ indices, findMatches pattern (stringLength pattern) text tstart tlast found = .ok (indices ++ found)
      ∧ FoundAll (candidates pattern.chars text.chars tstart tlast) indices := by
  induction hleft : (tlast + 1 - tstart).toNat generalizing tlast found with
  | zero =>
      rw [findMatches, if_neg (by omega), candidates_empty (by omega)]
      exact ⟨[], rfl, .nil, fun index => iff_of_false not_mem_nil id⟩
  | succ left ih =>
      have hge : tlast ≥ tstart := by omega
      rw [findMatches, if_pos hge, matchLoop_zero hpattern htext (by omega)]
      by_cases hhas : HasAt pattern.chars text.chars tlast.toNat
      · obtain ⟨indices, hindices, hsorted, hmem⟩ := @ih (tlast - 1) (by omega) (tlast.toNat :: found) (by omega)
        rw [if_pos hhas]
        refine ⟨indices ++ [tlast.toNat], ?_, ?_, fun index => ?_⟩
        · rw [append_assoc]
          exact hindices
        · refine pairwise_append.mpr ⟨hsorted, pairwise_singleton _ _, fun i hi j hj => ?_⟩
          have hbefore := ((hmem i).mp hi).2.1
          rw [mem_singleton.mp hj]
          omega
        · rw [mem_append, hmem, mem_singleton, mem_candidates_last hge]
          exact or_congr_right (and_iff_left hhas).symm
      · obtain ⟨indices, hindices, hsorted, hmem⟩ := @ih (tlast - 1) (by omega) found (by omega)
        rw [if_neg hhas]
        refine ⟨indices, hindices, hsorted, fun index => ?_⟩
        rw [hmem, mem_candidates_last hge]
        exact (or_iff_left fun h => hhas h.2).symm

/-! ## The searches -/

/-- The range is one of the text. -/
structure Admissible (start stop : Option Nat) (length : Nat) : Prop where
  stop_le : stop.getD length ≤ length
  start_le : start.getD 0 ≤ stop.getD length

/-- The searches find what there is in the range. -/
structure Searches (T : Tables) (pattern text : Str) (start stop : Option Nat) (found : Set Nat) : Prop where
  forward : ∃ answer, stringSearchForward T pattern text start stop = .ok answer ∧ FoundFirst found answer
  backward : ∃ answer, stringSearchBackward T pattern text start stop = .ok answer
    ∧ FoundLast found (stringLength pattern) answer
  all : ∃ answer, stringSearchAll T pattern text start stop = .ok answer ∧ FoundAll found answer

variable {start stop : Option Nat} {α : Type} {caller : String}
  {matcher : Str → Nat → Str → Nat → Int → Except Error α}

theorem fixEndIndex_getD {length : Nat} (h : stop.getD length ≤ length) :
    fixEndIndex stop length caller = .ok (stop.getD length) := by
  cases stop with
  | none => rfl
  | some stop => exact if_pos h

theorem fixStartIndex_getD {length : Nat} (h : start.getD 0 ≤ stop.getD length) (hgiven : start = none ∨ stop ≠ none) :
    fixStartIndex start stop caller = .ok (start.getD 0) := by
  cases stop with
  | none =>
      obtain rfl : start = none := hgiven.resolve_right fun hne => hne rfl
      rfl
  | some stop => exact fixStartIndex_some h

theorem stringMatcher_eq (hpattern : stringInNfc T pattern = true)
    (htext : stringInNfc T text = true) (hne : stringLength pattern ≠ 0)
    (hrange : Admissible start stop (stringLength text)) (hgiven : start = none ∨ stop ≠ none) :
    stringMatcher T caller matcher pattern text start stop
      = matcher pattern (stringLength pattern) text (start.getD 0)
          ((stop.getD (stringLength text) : Nat) - stringLength pattern) := by
  rw [stringMatcher, guaranteeNfcString, guaranteeNfcString, if_pos hpattern, if_pos htext, if_neg hne,
    fixEndIndex_getD hrange.stop_le, fixStartIndex_getD hrange.start_le hgiven]
  rfl

theorem stringMatcher_error (hne : stringLength pattern ≠ 0) (hrange : Admissible start stop (stringLength text))
    (h : ¬(stringInNfc T pattern = true ∧ stringInNfc T text = true
      ∧ (start = none ∨ stop ≠ none))) (answer : α) :
    stringMatcher T caller matcher pattern text start stop ≠ .ok answer := by
  intro hok
  rw [stringMatcher, guaranteeNfcString, guaranteeNfcString] at hok
  by_cases hpattern : stringInNfc T pattern = true
  · by_cases htext : stringInNfc T text = true
    · rw [if_pos hpattern, if_pos htext, if_neg hne] at hok
      have hstart : start ≠ none := fun heq => h ⟨hpattern, htext, .inl heq⟩
      have hstop : stop = none := Classical.byContradiction fun heq => h ⟨hpattern, htext, .inr heq⟩
      subst hstop
      obtain ⟨first, rfl⟩ := Option.ne_none_iff_exists'.mp hstart
      cases hok
    · rw [if_pos hpattern, if_neg htext] at hok
      cases hok
  · rw [if_neg hpattern] at hok
    cases hok

/-- The searches find what there is, exactly when the strings are in NFC and no start is given without an end. -/
theorem string_search_iff (hpattern : pattern.Valid T) (htext : text.Valid T) (hne : pattern.chars ≠ [])
    (hrange : Admissible start stop (stringLength text)) :
    Searches T pattern text start stop
        (occurrences pattern.chars text.chars (start.getD 0) (stop.getD (stringLength text)))
      ↔ stringInNfc T pattern = true ∧ stringInNfc T text = true
        ∧ (start = none ∨ stop ≠ none) := by
  have hlength : stringLength pattern ≠ 0 := by
    rw [← length_chars hpattern]
    exact fun h => hne (eq_nil_of_length_eq_zero h)
  constructor
  · intro h
    obtain ⟨answer, hok, -⟩ := h.forward
    exact Classical.byContradiction fun hnot => stringMatcher_error hlength hrange hnot answer hok
  · rintro ⟨hnfc, hnfc', hgiven⟩
    have hlast : ((stop.getD (stringLength text) : Nat) - stringLength pattern : Int) + stringLength pattern
        ≤ stringLength text := by
      have := hrange.stop_le
      omega
    rw [occurrences_eq_candidates, length_chars hpattern]
    refine ⟨?_, ?_, ?_⟩
    · rw [stringSearchForward, stringMatcher_eq hnfc hnfc' hlength hrange hgiven]
      exact dumbStringSearchForward_spec hpattern htext hlast _
    · rw [stringSearchBackward, stringMatcher_eq hnfc hnfc' hlength hrange hgiven]
      exact dumbStringSearchBackward_spec hpattern htext hlast _
    · rw [stringSearchAll, stringMatcher_eq hnfc hnfc' hlength hrange hgiven]
      obtain ⟨indices, hindices, hfound⟩ := findMatches_spec hpattern htext hlast (start.getD 0) []
      rw [append_nil] at hindices
      exact ⟨indices, hindices, hfound⟩

/-- "rat" -/
def rat : Str := .ustring (.legacy [0x72, 0x61, 0x74])

/-- "pirate eats a rat" -/
def pirate : Str :=
  .ustring (.legacy [0x70, 0x69, 0x72, 0x61, 0x74, 0x65, 0x20, 0x65, 0x61, 0x74, 0x73, 0x20, 0x61, 0x20, 0x72, 0x61, 0x74])

theorem string_search_iff_pirate :
    Searches angstromTables rat pirate (some 8) (some 17) (occurrences rat.chars pirate.chars 8 17)
      ↔ stringInNfc angstromTables rat = true
        ∧ stringInNfc angstromTables pirate = true
        ∧ (some 8 = none ∨ some 17 ≠ none) :=
  @string_search_iff angstromTables rat pirate (some 8) (some 17)
    (show ∀ c ∈ rat.chars, c < 0x100 by decide) (show ∀ c ∈ pirate.chars, c < 0x100 by decide) (by decide)
    ⟨by decide, by decide⟩

/-- With a start and no end, what is there is not found. -/
theorem string_search_start_alone :
    stringSearchForward angstromTables rat pirate (some 8) none
        = .error (.wrongTypeArgument "greater-than-fixnum?")
      ∧ IsLeast (occurrences rat.chars pirate.chars 8 (stringLength pirate)) 14 := by
  refine ⟨rfl, ⟨by decide, by decide, by decide⟩, fun index hi => ?_⟩
  obtain ⟨hstart, hstop, hhas⟩ := hi
  by_contra hlt
  have hcases : index = 8 ∨ index = 9 ∨ index = 10 ∨ index = 11 ∨ index = 12 ∨ index = 13 := by omega
  rcases hcases with rfl | rfl | rfl | rfl | rfl | rfl <;> exact absurd hhas (by decide)

end MitScheme.Strings
