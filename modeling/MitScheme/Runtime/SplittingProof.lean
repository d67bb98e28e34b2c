import MitScheme.Runtime.StringBuilderRuns
import MitScheme.Runtime.StringSearchProof

/-!
# Splitting and joining

The splitter and the joiner of `ustring.scm`. A part is a slice of the string, or a copy of one. What is joined
is built by a builder.
-/

namespace MitScheme.Strings

open Normalization (Str Tables immutableUstring)
open Normalization (angstromTables flaggedNfc stringInNfc stringToNfc)

/-- `slice?` -/
def isSlice : Str → Bool
  | .ustring _ => false
  | .slice _ _ _ => true

def stringSlice (string : Str) (start stop : Option Nat) : Except Error Str := do
  let length := stringLength string
  let stop ← fixEndIndex stop length "string-slice"
  let start ← fixStartIndex start (some stop) "string-slice"
  if start = 0 ∧ stop = length then return string
  else
    match string with
    | .slice string start' _ => return .slice string (start' + start) (stop - start)
    | .ustring string => return .slice string start (stop - start)

def substring (string : Str) (start stop : Option Nat) : Except Error Str := do
  let length := stringLength string
  let stop ← fixEndIndex stop length "substring"
  let start ← fixStartIndex start (some stop) "substring"
  if start = 0 ∧ stop = length ∧ ¬isSlice string ∧ flaggedNfc string then return string
  else return .ustring (immutableUstring (slice string.chars start stop))

section

variable (predicate : Nat → Bool) (allowRuns : Bool) (getPart : Str → Option Nat → Option Nat → Except Error Str)
  (string : Str) (stop : Nat)

mutual

def findStart (start : Nat) : Except Error (List Str) :=
  if allowRuns then
    if start < stop then do
      if predicate (← stringRef string start) then findStart (start + 1)
      else findEnd start (start + 1)
    else return []
  else findEnd start start
termination_by (stop - start, 1)

def findEnd (start index : Nat) : Except Error (List Str) :=
  if index < stop then do
    if predicate (← stringRef string index) then
      return (← getPart string (some start) (some index)) :: (← findStart (index + 1))
    else findEnd start (index + 1)
  else return [← getPart string (some start) (some stop)]
termination_by (stop - index, 0)

end

end

def stringSplitter (predicate : Nat → Bool) (allowRuns copy : Bool) (string : Str) (start stop : Option Nat) :
    Except Error (List Str) := do
  let getPart := if copy then substring else stringSlice
  let stop ← fixEndIndex stop (stringLength string) "string-splitter"
  let start ← fixStartIndex start (some stop) "string-splitter"
  findStart predicate allowRuns getPart string stop start

/-- `burst-string`, at a character. -/
def burstString (string : Str) (delimiter : Nat) (allowRuns : Bool) : Except Error (List Str) :=
  stringSplitter (· == delimiter) allowRuns true string none none

variable (T : Tables)

/-- What a builder builds of some strings, by default. -/
def builderResult (strings : List Str) : Str :=
  let result := Str.ustring (immutableUstring (strings.flatMap Str.chars))
  if flaggedNfc result then result else stringToNfc T result

def stringAppend (strings : List Str) : Str := builderResult T strings

def stringJoiner (infixString prefixString suffixString : Str) (strings : List Str) : Str :=
  let infixString := stringAppend T [suffixString, infixString, prefixString]
  match strings with
  | string :: strings =>
      builderResult T ([prefixString, string] ++ strings.flatMap (fun string => [infixString, string]) ++ [suffixString])
  | [] => .ustring (.legacy [])

/-- `char->string` -/
def charToString (char : Nat) : Str := .ustring (immutableUstring [char])

/-!
## Parts of strings

The splitter makes the parts between delimiters, or the runs of other characters that are as long as they can be.
Joining the former gives the NFC of the string.
-/

open Normalization (canonicalComposition canonicalDecomposition decompose)

variable {T} {string : Str} {predicate : Nat → Bool}
  {getPart : Str → Option Nat → Option Nat → Except Error Str}

/-- A part has the characters between two indices. -/
def GetsPart (T : Tables) (string : Str) (getPart : Str → Option Nat → Option Nat → Except Error Str) : Prop :=
  ∀ start stop, start ≤ stop → stop ≤ stringLength string →
    ∃ part, getPart string (some start) (some stop) = .ok part ∧ part.Valid T
      ∧ part.chars = slice string.chars start stop

theorem fixEndIndex_some {stop length : Nat} {caller : String} (h : stop ≤ length) :
    fixEndIndex (some stop) length caller = .ok stop := if_pos h

theorem slice_whole (h : string.Valid T) : slice string.chars 0 (stringLength string) = string.chars := by
  rw [← length_chars h, slice_all]

theorem fixStartIndex_le {start stop : Nat} {caller : String} (h : start ≤ stop) :
    fixStartIndex (some start) (some stop) caller = .ok start :=
  @fixStartIndex_some stop (some start) caller h

theorem stringSlice_getsPart (h : string.Valid T) : GetsPart T string stringSlice := by
  intro start stop hstart hstop
  simp only [stringSlice, fixEndIndex_some hstop, fixStartIndex_le hstart, bind, Except.bind]
  by_cases hall : start = 0 ∧ stop = stringLength string
  · obtain ⟨rfl, rfl⟩ := hall
    rw [if_pos ⟨rfl, rfl⟩]
    exact ⟨string, rfl, h, (slice_whole h).symm⟩
  · rw [if_neg hall]
    cases string with
    | ustring string =>
        refine ⟨_, rfl, ⟨h, ?_⟩, ?_⟩
        · rw [Nat.add_sub_cancel' hstart]
          exact hstop
        · change slice string.chars start (start + (stop - start)) = slice string.chars start stop
          rw [Nat.add_sub_cancel' hstart]
    | slice string start' length =>
        have hlength : stop ≤ length := hstop
        refine ⟨_, rfl, ⟨h.1, ?_⟩, ?_⟩
        · have := h.2
          omega
        · rw [Str.chars, Str.chars, slice_slice _ (Nat.add_le_add_left hlength start'), Nat.add_assoc,
            Nat.add_sub_cancel' hstart]

theorem substring_getsPart (hT : T.WellFormed) (h : string.Valid T) : GetsPart T string substring := by
  intro start stop hstart hstop
  simp only [substring, fixEndIndex_some hstop, fixStartIndex_le hstart, bind, Except.bind]
  by_cases hall : start = 0 ∧ stop = stringLength string ∧ ¬isSlice string ∧ flaggedNfc string
  · obtain ⟨rfl, rfl, hflag⟩ := hall
    rw [if_pos ⟨rfl, rfl, hflag⟩]
    exact ⟨string, rfl, h, (slice_whole h).symm⟩
  · rw [if_neg hall]
    obtain ⟨hvalid, hchars⟩ := Normalization.immutableUstring_valid hT (slice string.chars start stop)
    exact ⟨_, rfl, hvalid, hchars⟩

/-! ## Parts between delimiters -/

/-- Nothing between two indices is a delimiter. -/
def Free (predicate : Nat → Bool) (chars : List Nat) (start stop : Nat) : Prop :=
  ∀ c ∈ slice chars start stop, predicate c = false

theorem slice_succ {α : Type} {l : List α} {i j : Nat} (hij : i ≤ j) (hj : j < l.length) :
    slice l i (j + 1) = slice l i j ++ [l[j]] := by
  rw [← slice_append l hij (Nat.le_succ j), slice_cons (List.getElem?_eq_getElem hj) (Nat.lt_succ_self j), slice_self]

theorem Free.succ {chars : List Nat} {start index : Nat} (h : Free predicate chars start index)
    (hle : start ≤ index) (hlt : index < chars.length) (hc : predicate chars[index] = false) :
    Free predicate chars start (index + 1) := by
  intro c hmem
  rw [slice_succ hle hlt] at hmem
  rcases List.mem_append.mp hmem with hmem | hmem
  · exact h c hmem
  · exact List.mem_singleton.mp hmem ▸ hc

theorem findEnd_splits (h : string.Valid T) (hpart : GetsPart T string getPart) {stop : Nat}
    (hstop : stop ≤ stringLength string) : ∀ start index, start ≤ index → index ≤ stop →
    Free predicate string.chars start index →
    ∃ parts, findEnd predicate false getPart string stop start index = .ok parts
      ∧ (∀ part ∈ parts, ∀ c ∈ part.chars, predicate c = false)
      ∧ parts.map Str.chars = (slice string.chars start stop).splitOnP predicate := by
  intro start index
  induction hleft : stop - index generalizing start index with
  | zero =>
      intro hstart hindex hfree
      obtain rfl : index = stop := by omega
      obtain ⟨part, hget, -, hchars⟩ := hpart start index hstart hstop
      rw [findEnd, if_neg (Nat.lt_irrefl index), hget]
      refine ⟨[part], rfl, fun p hp => ?_, ?_⟩
      · rw [List.mem_singleton.mp hp, hchars]
        exact hfree
      · rw [List.splitOnP_eq_singleton hfree, List.map_singleton, hchars]
  | succ left ih =>
      intro hstart hindex hfree
      have hlt : index < string.chars.length := by
        rw [length_chars h]
        omega
      rw [findEnd, if_pos (by omega), stringRef_eq h (by omega), List.getD_eq_getElem _ _ hlt]
      by_cases hc : predicate string.chars[index] = true
      · obtain ⟨part, hget, -, hchars⟩ := hpart start index hstart (by omega)
        obtain ⟨parts, hrest, hfrees, hparts⟩ := ih (index + 1) (index + 1) (by omega) (Nat.le_refl _) (by omega)
          (by rw [Free, slice_self]; exact fun _ h => absurd h List.not_mem_nil)
        have hsplit : slice string.chars start stop
            = slice string.chars start index ++ string.chars[index] :: slice string.chars (index + 1) stop := by
          rw [← slice_append _ hstart hindex, slice_cons (List.getElem?_eq_getElem hlt) (by omega)]
        change ∃ parts, (if predicate string.chars[index] = true then _ else _) = _ ∧ _
        rw [if_pos hc, hget, findStart, hrest]
        refine ⟨part :: parts, rfl, fun p hp => ?_, ?_⟩
        · rcases List.mem_cons.mp hp with rfl | hp
          · rw [hchars]
            exact hfree
          · exact hfrees p hp
        · rw [hsplit, List.splitOnP_append_cons_of_forall_mem hfree _ hc, List.map_cons, hchars, hparts]
      · change ∃ parts, (if predicate string.chars[index] = true then _ else _) = _ ∧ _
        rw [if_neg hc]
        exact ih start (index + 1) (by omega) (by omega) (by omega)
          (hfree.succ hstart hlt (Bool.eq_false_iff.mpr hc))

/-! ## Runs -/

/-- A run of characters that are no delimiters, which cannot be made longer within the range. -/
structure MaximalRun (predicate : Nat → Bool) (chars : List Nat) (start stop : Nat) (run : Nat × Nat) : Prop where
  nonempty : run.1 < run.2
  within : start ≤ run.1 ∧ run.2 ≤ stop
  free : Free predicate chars run.1 run.2
  first : run.1 = start ∨ predicate (chars.getD (run.1 - 1) 0) = true
  last : run.2 = stop ∨ predicate (chars.getD run.2 0) = true

variable {chars : List Nat} {start stop : Nat}

theorem Free.getD {i j k : Nat} (h : Free predicate chars i j) (hj : j ≤ chars.length) (hik : i ≤ k) (hkj : k < j) :
    predicate (chars.getD k 0) = false := by
  refine h _ ?_
  have hk : k < chars.length := Nat.lt_of_lt_of_le hkj hj
  rw [List.getD_eq_getElem _ _ hk, ← slice_append chars hik (Nat.le_of_lt hkj),
    slice_cons (List.getElem?_eq_getElem hk) hkj]
  exact List.mem_append_right _ List.mem_cons_self

theorem MaximalRun.next {run run' : Nat × Nat} (h : MaximalRun predicate chars start stop run)
    (h' : MaximalRun predicate chars start stop run') (hstop : stop ≤ chars.length) (hle : run.1 ≤ run'.1) :
    run' = run ∨ run.2 < run'.1 := by
  have hend := h.within.2
  have hend' := h'.within.2
  by_cases hfirst : run'.1 = run.1
  · refine .inl (Prod.ext hfirst ?_)
    -- neither of the ends is within the other run
    rcases Nat.lt_trichotomy run'.2 run.2 with hlt | heq | hgt
    · have hfree := h.free.getD (by omega) (show run.1 ≤ run'.2 by have := h'.nonempty; omega) hlt
      rcases h'.last with heq | hdelimiter
      · omega
      · rw [hfree] at hdelimiter
        cases hdelimiter
    · exact heq
    · have hfree := h'.free.getD (by omega) (show run'.1 ≤ run.2 by have := h.nonempty; omega) hgt
      rcases h.last with heq | hdelimiter
      · omega
      · rw [hfree] at hdelimiter
        cases hdelimiter
  · have hstart := h.within.1
    by_contra hlt
    rcases h'.first with heq | hdelimiter
    · omega
    · rw [h.free.getD (by omega) (show run.1 ≤ run'.1 - 1 by omega) (by omega)] at hdelimiter
      cases hdelimiter

/-- Some parts are the runs from an index on. -/
structure AreRuns (T : Tables) (predicate : Nat → Bool) (string : Str) (start stop index : Nat) (parts : List Str)
    (runs : List (Nat × Nat)) : Prop where
  valid : ∀ part ∈ parts, part.Valid T
  chars : parts.map Str.chars = runs.map fun run => slice string.chars run.1 run.2
  sorted : runs.Pairwise fun run run' => run.2 < run'.1
  mem : ∀ run, run ∈ runs ↔ MaximalRun predicate string.chars start stop run ∧ index ≤ run.1

theorem AreRuns.nil {index : Nat} (h : stop ≤ index) : AreRuns T predicate string start stop index [] [] where
  valid _ hp := absurd hp List.not_mem_nil
  chars := rfl
  sorted := .nil
  mem run := by
    refine iff_of_false List.not_mem_nil fun hrun => ?_
    have hlt := hrun.1.nonempty
    have hle := hrun.1.within.2
    omega

theorem AreRuns.cons {run : Nat × Nat} {part : Str} {parts : List Str} {runs : List (Nat × Nat)}
    (h : AreRuns T predicate string start stop (run.2 + 1) parts runs)
    (hrun : MaximalRun predicate string.chars start stop run) (hstop : stop ≤ string.chars.length)
    (hvalid : part.Valid T) (hchars : part.chars = slice string.chars run.1 run.2) :
    AreRuns T predicate string start stop run.1 (part :: parts) (run :: runs) where
  valid p hp := by
    rcases List.mem_cons.mp hp with rfl | hp
    · exact hvalid
    · exact h.valid p hp
  chars := by rw [List.map_cons, List.map_cons, hchars, h.chars]
  sorted := List.pairwise_cons.mpr ⟨fun run' hmem => ((h.mem run').mp hmem).2, h.sorted⟩
  mem run' := by
    rw [List.mem_cons, h.mem]
    constructor
    · intro hcases
      rcases hcases with rfl | ⟨hrun', hlt⟩
      · exact ⟨hrun, Nat.le_refl _⟩
      · have := hrun.nonempty
        exact ⟨hrun', by omega⟩
    · intro hrun'
      rcases hrun.next hrun'.1 hstop hrun'.2 with rfl | hlt
      · exact .inl rfl
      · exact .inr ⟨hrun'.1, hlt⟩

theorem AreRuns.skip {index : Nat} {parts : List Str} {runs : List (Nat × Nat)}
    (h : AreRuns T predicate string start stop (index + 1) parts runs) (hstop : stop ≤ string.chars.length)
    (hc : predicate (string.chars.getD index 0) = true) : AreRuns T predicate string start stop index parts runs where
  valid := h.valid
  chars := h.chars
  sorted := h.sorted
  mem run := by
    rw [h.mem]
    refine and_congr_right fun hrun => ⟨Nat.le_of_succ_le, fun hle => Nat.lt_of_le_of_ne hle ?_⟩
    rintro rfl
    rw [hrun.free.getD (Nat.le_trans hrun.within.2 hstop) (Nat.le_refl _) hrun.nonempty] at hc
    cases hc

/-- A run may begin at an index. -/
def Begins (predicate : Nat → Bool) (chars : List Nat) (start index : Nat) : Prop :=
  start ≤ index ∧ (index = start ∨ predicate (chars.getD (index - 1) 0) = true)

theorem find_runs (h : string.Valid T) (hpart : GetsPart T string getPart) (hstop : stop ≤ stringLength string)
    (index : Nat) (hindex : index ≤ stop) :
    (Begins predicate string.chars start index →
      ∃ parts runs, findStart predicate true getPart string stop index = .ok parts
        ∧ AreRuns T predicate string start stop index parts runs)
    ∧ ∀ first, Begins predicate string.chars start first → first < index →
        Free predicate string.chars first index →
        ∃ parts runs, findEnd predicate true getPart string stop first index = .ok parts
          ∧ AreRuns T predicate string start stop first parts runs := by
  have hlength : stop ≤ string.chars.length := by rwa [length_chars h]
  induction hleft : stop - index generalizing index with
  | zero =>
      obtain rfl : index = stop := by omega
      constructor
      · intro _
        rw [findStart, if_neg (Nat.lt_irrefl index)]
        exact ⟨[], [], rfl, .nil (Nat.le_refl _)⟩
      · intro first hbegins hlt hfree
        obtain ⟨part, hget, hvalid, hchars⟩ := hpart first index (Nat.le_of_lt hlt) hstop
        have hrun : MaximalRun predicate string.chars start index (first, index) :=
          ⟨hlt, ⟨hbegins.1, Nat.le_refl _⟩, hfree, hbegins.2, .inl rfl⟩
        rw [findEnd, if_neg (Nat.lt_irrefl index), hget]
        exact ⟨[part], [(first, index)], rfl, .cons (.nil (Nat.le_succ index)) hrun hlength hvalid hchars⟩
  | succ left ih =>
      have hlt : index < string.chars.length := by omega
      have hd : string.chars.getD index 0 = string.chars[index] := List.getD_eq_getElem _ _ hlt
      obtain ⟨hstart, hend⟩ := ih (index + 1) (by omega) (by omega)
      by_cases hc : predicate string.chars[index] = true
      · have hbegins' : start ≤ index → Begins predicate string.chars start (index + 1) := fun hle =>
          ⟨Nat.le_succ_of_le hle, .inr (by rw [Nat.add_sub_cancel, hd]; exact hc)⟩
        constructor
        · intro hbegins
          obtain ⟨parts, runs, hrest, hruns⟩ := hstart (hbegins' hbegins.1)
          rw [findStart, if_pos rfl, if_pos (by omega), stringRef_eq h (by omega), hd]
          change ∃ parts runs, (if predicate string.chars[index] = true then _ else _) = _ ∧ _
          rw [if_pos hc]
          exact ⟨parts, runs, hrest, hruns.skip hlength (by rw [hd]; exact hc)⟩
        · intro first hbegins hfirst hfree
          obtain ⟨parts, runs, hrest, hruns⟩ := hstart (hbegins' (Nat.le_trans hbegins.1 (Nat.le_of_lt hfirst)))
          obtain ⟨part, hget, hvalid, hchars⟩ := hpart first index (Nat.le_of_lt hfirst) (by omega)
          have hrun : MaximalRun predicate string.chars start stop (first, index) :=
            ⟨hfirst, ⟨hbegins.1, hindex⟩, hfree, hbegins.2, .inr (by rw [hd]; exact hc)⟩
          rw [findEnd, if_pos (by omega), stringRef_eq h (by omega), hd]
          change ∃ parts runs, (if predicate string.chars[index] = true then _ else _) = _ ∧ _
          rw [if_pos hc, hget, hrest]
          exact ⟨part :: parts, (first, index) :: runs, rfl, hruns.cons hrun hlength hvalid hchars⟩
      · have hfalse : predicate string.chars[index] = false := Bool.eq_false_iff.mpr hc
        constructor
        · intro hbegins
          rw [findStart, if_pos rfl, if_pos (by omega), stringRef_eq h (by omega), hd]
          change ∃ parts runs, (if predicate string.chars[index] = true then _ else _) = _ ∧ _
          rw [if_neg hc]
          refine hend index hbegins (Nat.lt_succ_self index) (Free.succ ?_ (Nat.le_refl index) hlt hfalse)
          rw [Free, slice_self]
          exact fun _ hmem => absurd hmem List.not_mem_nil
        · intro first hbegins hfirst hfree
          rw [findEnd, if_pos (by omega), stringRef_eq h (by omega), hd]
          change ∃ parts runs, (if predicate string.chars[index] = true then _ else _) = _ ∧ _
          rw [if_neg hc]
          exact hend first hbegins (Nat.lt_succ_of_lt hfirst) (hfree.succ (Nat.le_of_lt hfirst) hlt hfalse)

/-- The NFC of some characters. -/
def nfc (T : Tables) (chars : List Nat) : List Nat := canonicalComposition T (canonicalDecomposition T chars)

theorem builderResult_chars (hT : T.WellFormed) (strings : List Str) :
    (builderResult T strings).chars = nfc T (strings.flatMap Str.chars) := by
  obtain ⟨hvalid, hchars⟩ := Normalization.immutableUstring_valid hT (strings.flatMap Str.chars)
  have hnfc := (@Normalization.stringToNfc_spec T hT
    (.ustring (immutableUstring (strings.flatMap Str.chars))) hvalid).2
  rw [show (Str.ustring (immutableUstring (strings.flatMap Str.chars))).chars = _ from hchars] at hnfc
  rw [builderResult]
  by_cases hflag : flaggedNfc (.ustring (immutableUstring (strings.flatMap Str.chars))) = true
  · rw [if_pos hflag]
    rwa [stringToNfc, if_pos hflag] at hnfc
  · rw [if_neg hflag]
    exact hnfc

open StringBuilder in
open StringBuilder in
theorem alike_joined (hT : T.WellFormed) (infixChars : List Nat) (parts : List (List Nat)) :
    Arranging.Alike T.ccc (decompose T (parts.flatMap fun part => nfc T infixChars ++ part))
      (decompose T (parts.flatMap fun part => infixChars ++ part)) := by
  induction parts with
  | nil => exact .refl _
  | cons part parts ih =>
      rw [List.flatMap_cons, List.flatMap_cons, Normalization.decompose_append, Normalization.decompose_append,
        Normalization.decompose_append, Normalization.decompose_append]
      exact ((Normalization.alike_composition hT infixChars).append (.refl _)).append ih

theorem intercalate_eq (infixChars : List Nat) (part : List Nat) (parts : List (List Nat)) :
    infixChars.intercalate (part :: parts) = part ++ parts.flatMap fun part => infixChars ++ part := by
  induction parts generalizing part with
  | nil => simp [List.intercalate_singleton]
  | cons part' parts ih =>
      rw [List.intercalate_cons_cons, ih, List.flatMap_cons, List.append_assoc, List.append_assoc]

/-- A string literal of no characters. -/
def emptyString : Str := .ustring (.legacy [])

theorem stringJoiner_chars (hT : T.WellFormed) (infixString : Str) {parts : List Str} (hparts : parts ≠ []) :
    (stringJoiner T infixString emptyString emptyString parts).chars
      = nfc T (infixString.chars.intercalate (parts.map Str.chars)) := by
  have hinfix : (stringAppend T [emptyString, infixString, emptyString]).chars = nfc T infixString.chars := by
    rw [stringAppend, builderResult_chars hT]
    simp [emptyString, Str.chars, Normalization.Ustring.chars]
  cases parts with
  | nil => exact absurd rfl hparts
  | cons part parts =>
      have hchars : ([emptyString, part] ++ parts.flatMap (fun string =>
            [stringAppend T [emptyString, infixString, emptyString], string]) ++ [emptyString]).flatMap Str.chars
          = part.chars ++ (parts.map Str.chars).flatMap fun part => nfc T infixString.chars ++ part := by
        have hempty : emptyString.chars = [] := rfl
        simp [hempty, hinfix, List.flatMap_map, List.flatMap_assoc]
      rw [stringJoiner, builderResult_chars hT, hchars, List.map_cons, intercalate_eq]
      refine Normalization.composition_congr ?_
      rw [Normalization.decompose_append, Normalization.decompose_append]
      exact (Arranging.Alike.refl _).append (alike_joined hT _ _)

/-! ## Splitting and joining -/

theorem getsPart (hT : T.WellFormed) (h : string.Valid T) (copy : Bool) :
    GetsPart T string (if copy then substring else stringSlice) := by
  cases copy with
  | false => exact stringSlice_getsPart h
  | true => exact substring_getsPart hT h

theorem stringSplitter_eq {start stop : Option Nat} {allowRuns copy : Bool}
    (hstop : stop.getD (stringLength string) ≤ stringLength string)
    (hstart : start.getD 0 ≤ stop.getD (stringLength string)) :
    stringSplitter predicate allowRuns copy string start stop
      = findStart predicate allowRuns (if copy then substring else stringSlice) string
          (stop.getD (stringLength string)) (start.getD 0) := by
  have hend : fixEndIndex stop (stringLength string) "string-splitter" = .ok (stop.getD (stringLength string)) := by
    cases stop with
    | none => rfl
    | some stop => exact if_pos hstop
  rw [stringSplitter, hend]
  change (fixStartIndex start (some (stop.getD (stringLength string))) _ >>= _) = _
  rw [fixStartIndex_some hstart]
  rfl

section

variable {start stop : Option Nat} (hstop : stop.getD (stringLength string) ≤ stringLength string)
  (hstart : start.getD 0 ≤ stop.getD (stringLength string))

include hstop hstart

theorem splitter_joined (hT : T.WellFormed) (h : string.Valid T) (delimiter : Nat) (copy : Bool) :
    ∃ parts, stringSplitter (· == delimiter) false copy string start stop = .ok parts
      ∧ (∀ part ∈ parts, delimiter ∉ part.chars)
      ∧ (stringJoiner T (charToString delimiter) emptyString emptyString parts).chars
        = nfc T (slice string.chars (start.getD 0) (stop.getD (stringLength string))) := by
  have hnone : Free (· == delimiter) string.chars (start.getD 0) (start.getD 0) := by
    rw [Free, slice_self]
    exact fun _ hmem => absurd hmem List.not_mem_nil
  obtain ⟨parts, hparts, hfree, hchars⟩ :=
    findEnd_splits h (getsPart hT h copy) hstop (start.getD 0) (start.getD 0) (Nat.le_refl _) hstart hnone
  have hne : parts ≠ [] := by
    rintro rfl
    exact List.splitOnP_ne_nil _ _ hchars.symm
  refine ⟨parts, ?_, fun part hpart hmem => ?_, ?_⟩
  · rw [stringSplitter_eq hstop hstart, findStart, if_neg Bool.false_ne_true, hparts]
  · have hdelimiter := hfree part hpart delimiter hmem
    rw [beq_self_eq_true] at hdelimiter
    cases hdelimiter
  · have hdelimiter : (charToString delimiter).chars = [delimiter] :=
      (Normalization.immutableUstring_valid hT [delimiter]).2
    rw [stringJoiner_chars hT _ hne, hdelimiter, hchars]
    exact congrArg (nfc T) (List.intercalate_splitOn delimiter)

theorem splitter_runs (hT : T.WellFormed) (h : string.Valid T) (predicate : Nat → Bool) (copy : Bool) :
    ∃ (parts : List Str) (runs : List (Nat × Nat)),
      stringSplitter predicate true copy string start stop = .ok parts
      ∧ parts.map Str.chars = runs.map (fun run => slice string.chars run.1 run.2)
      ∧ runs.Pairwise (fun run run' => run.2 < run'.1)
      ∧ ∀ run, run ∈ runs
        ↔ MaximalRun predicate string.chars (start.getD 0) (stop.getD (stringLength string)) run := by
  obtain ⟨parts, runs, hparts, hruns⟩ :=
    (@find_runs T string predicate _ _ _ h (getsPart hT h copy) hstop (start.getD 0) hstart).1 ⟨Nat.le_refl _, .inl rfl⟩
  refine ⟨parts, runs, ?_, hruns.chars, hruns.sorted, fun run => ?_⟩
  · rw [stringSplitter_eq hstop hstart, hparts]
  · rw [hruns.mem]
    exact and_iff_left_of_imp fun hrun => hrun.within.1

end

/-- What the splitter and the joiner make of a range of a string. -/
structure Splits (T : Tables) (delimiter : Nat) (copy : Bool) (string : Str) (start stop : Option Nat) (i j : Nat) :
    Prop where
  joined : ∃ parts, stringSplitter (· == delimiter) false copy string start stop = .ok parts
    ∧ (∀ part ∈ parts, delimiter ∉ part.chars)
    ∧ (stringJoiner T (charToString delimiter) emptyString emptyString parts).chars = nfc T (slice string.chars i j)
  runs : ∃ (parts : List Str) (runs : List (Nat × Nat)),
    stringSplitter (· == delimiter) true copy string start stop = .ok parts
      ∧ parts.map Str.chars = runs.map (fun run => slice string.chars run.1 run.2)
      ∧ runs.Pairwise (fun run run' => run.2 < run'.1)
      ∧ ∀ run, run ∈ runs ↔ MaximalRun (· == delimiter) string.chars i j run

/-- Splitting at a delimiter, with the parts copied as by `burst-string` or not. The NFC of a string in NFC is the
string. -/
theorem split_and_join (hT : T.WellFormed) (h : string.Valid T) (delimiter : Nat) (copy : Bool)
    (start stop : Option Nat) (hstop : stop.getD (stringLength string) ≤ stringLength string)
    (hstart : start.getD 0 ≤ stop.getD (stringLength string)) :
    Splits T delimiter copy string start stop (start.getD 0) (stop.getD (stringLength string))
      ∧ (stringInNfc T string = true → nfc T string.chars = string.chars) :=
  ⟨⟨splitter_joined hstop hstart hT h delimiter copy, splitter_runs hstop hstart hT h _ copy⟩,
    Normalization.composition_of_stringInNfc hT h⟩

theorem split_and_join_pirate :
    Splits angstromTables 0x20 true pirate none (some 10) 0 10
      ∧ (stringInNfc angstromTables pirate = true
        → nfc angstromTables pirate.chars = pirate.chars) :=
  @split_and_join Normalization.angstromTables pirate Normalization.angstromTables_wellFormed
    (show ∀ c ∈ pirate.chars, c < 0x100 by decide) 0x20 true none (some 10) (by decide) (by decide)

/-- A letter and its ring are one part, which is joined to one character. -/
theorem split_and_join_angstrom : ∃ parts,
    burstString (.ustring (.ustring [0x41, 0x30A] 0 false false)) 0x2C false = .ok parts
      ∧ (stringJoiner angstromTables (charToString 0x2C) emptyString emptyString parts).chars = [0xC5] := by
  obtain ⟨parts, hparts, -, hchars⟩ := @splitter_joined angstromTables
    (.ustring (.ustring [0x41, 0x30A] 0 false false)) none none (by decide) (by decide)
    Normalization.angstromTables_wellFormed ⟨nofun, nofun, nofun⟩ 0x2C true
  exact ⟨parts, hparts, hchars.trans Normalization.angstrom_nfc⟩

end MitScheme.Strings
