import MitScheme.Runtime.Segmentation

/-!
# Every boundary is decided once

A machine decides of each boundary between two characters whether it is a break. The decisions of a run come in
the order of the boundaries, those that wait for what follows too, and the breaks are the ones that are decided.
-/

namespace MitScheme.Segmentation

open List
open Prod (fst snd)

/-- A boundary, and whether it is a break. -/
abbrev Decision := Nat × Bool

section

variable {α : Type} (break' : Nat → α → α)

/-- What is done about a decision. -/
def report (ctx : α) (decision : Decision) : α := if decision.2 then break' decision.1 ctx else ctx

/-- The boundaries that are no breaks because of what they are between. -/
def unbroken (start stop : Nat) : List Decision := (List.range' start (stop - start)).map fun i => (i, false)

theorem unbroken_fst (start stop : Nat) : (unbroken start stop).map fst = List.range' start (stop - start) := by
  rw [unbroken, List.map_map]
  exact List.map_id _

theorem foldl_unbroken (start stop : Nat) (ctx : α) : (unbroken start stop).foldl (report break') ctx = ctx := by
  rw [unbroken, foldl_map]
  exact foldl_fixed' (fun _ => rfl) _

end

section

variable (n : Nat) (getGcb : Nat → Gcb)

/-- The decisions of `transition`. -/
def gcbDecisions (gcb : Gcb) (i : Nat) : List Decision :=
  if i + 1 < n then
    gcbStates gcb (getGcb (i + 1)) fun gcb' isBreak => (i + 1, isBreak) :: gcbDecisions gcb' (i + 1)
  else []
termination_by n - i

theorem gcbStates_cases (gcb gcb' : Gcb) : ∃ next isBreak,
    ∀ {R : Type} (k : Gcb → Bool → R), gcbStates gcb gcb' k = k next isBreak := by
  cases gcb with
  | emojiBase | emojiBaseGaz =>
      by_cases h : gcb' = .extend
      · exact ⟨.emojiBase, false, fun k => if_pos h⟩
      · exact ⟨gcb', _, fun k => if_neg h⟩
  | _ => exact ⟨_, _, fun k => rfl⟩

theorem transition_eq {α : Type} (break' : Nat → α → α) (gcb : Gcb) (i : Nat) (ctx : α) :
    transition n getGcb break' gcb i ctx = break' n ((gcbDecisions n getGcb gcb i).foldl (report break') ctx) := by
  induction hleft : n - i generalizing gcb i ctx with
  | zero =>
      rw [transition, gcbDecisions]
      rw [if_neg (by omega), if_neg (by omega)]
      rfl
  | succ left ih =>
      rw [transition, gcbDecisions]
      by_cases hlt : i + 1 < n
      · obtain ⟨next, isBreak, hstate⟩ := gcbStates_cases gcb (getGcb (i + 1))
        rw [if_pos hlt, if_pos hlt, hstate, hstate]
        exact ih next (i + 1) _ (by omega)
      · rw [if_neg hlt, if_neg hlt]
        rfl

theorem gcbDecisions_fst (gcb : Gcb) (i : Nat) :
    (gcbDecisions n getGcb gcb i).map fst = List.range' (i + 1) (n - (i + 1)) := by
  induction hleft : n - i generalizing gcb i with
  | zero =>
      rw [gcbDecisions, if_neg (by omega), show n - (i + 1) = 0 by omega]
      rfl
  | succ left ih =>
      rw [gcbDecisions]
      by_cases hlt : i + 1 < n
      · obtain ⟨next, isBreak, hstate⟩ := gcbStates_cases gcb (getGcb (i + 1))
        rw [if_pos hlt, hstate, map_cons, ih next (i + 1) (by omega),
          show n - (i + 1) = n - (i + 1 + 1) + 1 by omega, range'_succ]
      · rw [if_neg hlt, show n - (i + 1) = 0 by omega]
        rfl

end

/-! ## Words -/

theorem lookAhead_cases {wb2 : Option Wb} {p : Wb → Bool} {next : Wb} {isBreak : Bool} :
    (∀ {R : Type} (k1 : Wb → Bool → R) (k2 : Unit → R),
        (if wb2.any p then k2 () else k1 next isBreak) = k1 next isBreak)
      ∨ wb2 ≠ none ∧ ∀ {R : Type} (k1 : Wb → Bool → R) (k2 : Unit → R),
        (if wb2.any p then k2 () else k1 next isBreak) = k2 () := by
  by_cases h : wb2.any p = true
  · refine .inr ⟨?_, fun k1 k2 => if_pos h⟩
    rintro rfl
    cases h
  · exact .inl fun k1 k2 => if_neg h

theorem wbStates_cases (wb0 wb1 : Wb) (wb2 : Option Wb) :
    (∃ next isBreak, ∀ {R : Type} (k1 : Wb → Bool → R) (k2 : Unit → R), wbStates wb0 wb1 wb2 k1 k2 = k1 next isBreak)
      ∨ wb2 ≠ none ∧ ∀ {R : Type} (k1 : Wb → Bool → R) (k2 : Unit → R), wbStates wb0 wb1 wb2 k1 k2 = k2 () := by
  cases wb0 with
  | hebrewLetter | letter | numeric =>
      rcases lookAhead_cases with h | h
      · exact .inl ⟨_, _, h⟩
      · exact .inr h
  | regionalIndicator =>
      by_cases h : makeSelector [.regionalIndicator] wb1 = true
      · exact .inl ⟨.extend, false, fun k1 k2 => if_pos h⟩
      · exact .inl ⟨wb1, true, fun k1 k2 => if_neg h⟩
  | _ => exact .inl ⟨_, _, fun k1 k2 => rfl⟩

section

variable (n : Nat) (getWb : Nat → Wb)

/-- The decisions after a character that is in a state, with the character after it in `two`. In `two` the
boundary between them waits. -/
inductive Config where
  | one (wb0 : Wb) (i0 : Nat)
  | two (wb0 wb1 : Wb) (i1 : Nat)

def Config.index : Config → Nat
  | .one _ i0 => i0
  | .two _ _ i1 => i1

/-- What a state decides, unless it puts the decision off. -/
def outcome (wb0 wb1 : Wb) (wb2 : Option Wb) : Option (Wb × Bool) :=
  wbStates wb0 wb1 wb2 (fun next isBreak => some (next, isBreak)) fun _ => none

/-- The decisions of a run, each when it is made or when it is clear that there is no break. -/
def wbDecisions : Config → List Decision
  | .one wb0 i0 =>
      let i1 := i0 + 1
      if i1 < n then
        if selectBreaker wb0 then
          match outcome wb0 (getWb i1) none with
          | some (next, isBreak) => (i1, isBreak) :: wbDecisions (.one next i1)
          | none => []
        else if selectExtender (getWb i1) then
          (i1, false) :: wbDecisions (.one (if selectZwj wb0 then getWb i1 else wb0) i1)
        else if selectBreaker (getWb i1) then (i1, true) :: wbDecisions (.one (getWb i1) i1)
        else wbDecisions (.two wb0 (getWb i1) i1)
      else []
  | .two wb0 wb1 i1 =>
      let i2 := findI2 n getWb (i1 + 1)
      if i2 < n then
        match outcome wb0 wb1 (some (getWb i2)) with
        | some (next, isBreak) => (i1, isBreak) :: unbroken (i1 + 1) i2 ++ wbDecisions (.two next (getWb i2) i2)
        | none => (i1, false) :: unbroken (i1 + 1) i2 ++ (i2, false) :: wbDecisions (.one (getWb i2) i2)
      else
        match outcome wb0 wb1 none with
        | some (_, isBreak) => (i1, isBreak) :: unbroken (i1 + 1) i2
        | none => []
termination_by c => (n - c.index, match c with | .one _ _ => 1 | .two _ _ _ => 0)
decreasing_by
  · exact Prod.Lex.left _ _ (by simp only [Config.index]; omega)
  · exact Prod.Lex.left _ _ (by simp only [Config.index]; omega)
  · exact Prod.Lex.left _ _ (by simp only [Config.index]; omega)
  · exact Prod.Lex.left _ _ (by simp only [Config.index]; omega)
  · have hle := le_findI2 n getWb (i1 + 1)
    exact Prod.Lex.left _ _ (by simp only [Config.index]; omega)
  · have hle := le_findI2 n getWb (i1 + 1)
    exact Prod.Lex.left _ _ (by simp only [Config.index]; omega)

variable {n getWb}

theorem findI2_le {i2 : Nat} (h : i2 ≤ n) : findI2 n getWb i2 ≤ n := by
  induction i2 using findI2.induct n getWb with
  | case1 i2 hlt hextender ih =>
      rw [findI2, if_pos hlt, if_pos hextender]
      exact ih hlt
  | case2 i2 hlt hextender =>
      rw [findI2, if_pos hlt, if_neg hextender]
      exact h
  | case3 i2 hlt =>
      rw [findI2, if_neg hlt]
      exact h

theorem outcome_some {wb0 wb1 : Wb} {wb2 : Option Wb} {next : Wb} {isBreak : Bool}
    (h : ∀ {R : Type} (k1 : Wb → Bool → R) (k2 : Unit → R), wbStates wb0 wb1 wb2 k1 k2 = k1 next isBreak) :
    outcome wb0 wb1 wb2 = some (next, isBreak) := h _ _

theorem outcome_none {wb0 wb1 : Wb} {wb2 : Option Wb}
    (h : ∀ {R : Type} (k1 : Wb → Bool → R) (k2 : Unit → R), wbStates wb0 wb1 wb2 k1 k2 = k2 ()) :
    outcome wb0 wb1 wb2 = none := h _ _

theorem wbStates_none (wb0 wb1 : Wb) : ∃ next isBreak,
    ∀ {R : Type} (k1 : Wb → Bool → R) (k2 : Unit → R), wbStates wb0 wb1 none k1 k2 = k1 next isBreak :=
  (wbStates_cases wb0 wb1 none).resolve_right fun h => h.1 rfl

theorem not_breaker_of_extender {wb : Wb} (h : selectExtender wb = true) : ¬selectBreaker wb = true := by
  cases wb <;> first | exact Bool.false_ne_true | cases h

section

variable {α : Type} (break' : Nat → α → α)

theorem t1_t2_eq (left : Nat) :
    (∀ wb0 i0 ctx, n - i0 = left →
      t1 n getWb break' wb0 i0 ctx = some ((wbDecisions n getWb (.one wb0 i0)).foldl (report break') ctx))
    ∧ ∀ wb0 wb1 i1 ctx, n - i1 = left → i1 < n →
      t2 n getWb break' wb0 wb1 i1 ctx = some ((wbDecisions n getWb (.two wb0 wb1 i1)).foldl (report break') ctx) := by
  induction left using Nat.strongRecOn with
  | ind left ih =>
      constructor
      · intro wb0 i0 ctx hleft
        by_cases hlt : i0 + 1 < n
        · obtain ⟨hone, htwo⟩ := ih (n - (i0 + 1)) (by omega)
          by_cases hbreaker : selectBreaker wb0 = true
          · obtain ⟨next, isBreak, hstate⟩ := wbStates_none wb0 (getWb (i0 + 1))
            rw [t1, if_pos hbreaker, t1Breaker, if_pos hlt, hstate, wbDecisions, if_pos hlt, if_pos hbreaker,
              outcome_some hstate]
            exact hone next (i0 + 1) _ rfl
          · rw [t1, if_neg hbreaker, t1NotBreaker, if_pos hlt, wbDecisions, if_pos hlt, if_neg hbreaker]
            by_cases hextender : selectExtender (getWb (i0 + 1)) = true
            · have hnext : ¬selectBreaker (if selectZwj wb0 then getWb (i0 + 1) else wb0) = true := by
                split
                · exact not_breaker_of_extender hextender
                · exact hbreaker
              have hrest := hone (if selectZwj wb0 then getWb (i0 + 1) else wb0) (i0 + 1) ctx rfl
              rw [t1, if_neg hnext] at hrest
              rw [if_pos hextender, if_pos hextender, hrest]
              rfl
            · rw [if_neg hextender, if_neg hextender]
              by_cases hbreaker1 : selectBreaker (getWb (i0 + 1)) = true
              · have hrest := hone (getWb (i0 + 1)) (i0 + 1) (break' (i0 + 1) ctx) rfl
                rw [t1, if_pos hbreaker1] at hrest
                rw [if_pos hbreaker1, if_pos hbreaker1, hrest]
                rfl
              · rw [if_neg hbreaker1, if_neg hbreaker1]
                exact htwo wb0 (getWb (i0 + 1)) (i0 + 1) ctx rfl hlt
        · rw [wbDecisions, if_neg hlt, t1, t1Breaker, t1NotBreaker, if_neg hlt, if_neg hlt, ite_self]
          rfl
      · intro wb0 wb1 i1 ctx hleft hi1
        have hle := le_findI2 n getWb (i1 + 1)
        rw [t2, wbDecisions]
        by_cases hlt : findI2 n getWb (i1 + 1) < n
        · obtain ⟨hone, htwo⟩ := ih (n - findI2 n getWb (i1 + 1)) (by omega)
          rw [if_pos hlt, if_pos hlt]
          rcases wbStates_cases wb0 wb1 (some (getWb (findI2 n getWb (i1 + 1)))) with
            ⟨next, isBreak, hstate⟩ | ⟨-, hstate⟩
          · rw [hstate, outcome_some hstate, htwo _ _ _ _ rfl hlt]
            simp only [cons_append, foldl_cons, foldl_append, foldl_unbroken]
            rfl
          · rw [hstate, outcome_none hstate, hone _ _ _ rfl]
            simp only [cons_append, foldl_cons, foldl_append, foldl_unbroken]
            rfl
        · obtain ⟨next, isBreak, hstate⟩ := wbStates_none wb0 wb1
          rw [if_neg hlt, if_neg hlt, hstate, outcome_some hstate]
          simp only [foldl_cons, foldl_unbroken]
          rfl

end

theorem range'_split {i j k : Nat} (hij : i ≤ j) (hjk : j ≤ k) :
    List.range' i (j - i) ++ List.range' j (k - j) = List.range' i (k - i) := by
  have h : List.range' i (j - i) ++ List.range' (i + (j - i)) (k - j) = _ := range'_append_1
  rw [Nat.add_sub_cancel' hij] at h
  rw [h]
  congr 1
  omega

theorem wbDecisions_fst (left : Nat) :
    (∀ wb0 i0, n - i0 = left →
      (wbDecisions n getWb (.one wb0 i0)).map fst = List.range' (i0 + 1) (n - (i0 + 1)))
    ∧ ∀ wb0 wb1 i1, n - i1 = left → i1 < n →
      (wbDecisions n getWb (.two wb0 wb1 i1)).map fst = List.range' i1 (n - i1) := by
  induction left using Nat.strongRecOn with
  | ind left ih =>
      constructor
      · intro wb0 i0 hleft
        rw [wbDecisions]
        by_cases hlt : i0 + 1 < n
        · obtain ⟨hone, htwo⟩ := ih (n - (i0 + 1)) (by omega)
          have hcons : List.range' (i0 + 1) (n - (i0 + 1)) = (i0 + 1) :: List.range' (i0 + 1 + 1) (n - (i0 + 1 + 1)) := by
            rw [show n - (i0 + 1) = n - (i0 + 1 + 1) + 1 by omega, range'_succ]
          rw [if_pos hlt]
          split
          · obtain ⟨next, isBreak, hstate⟩ := wbStates_none wb0 (getWb (i0 + 1))
            rw [outcome_some hstate, hcons]
            exact congrArg _ (hone next (i0 + 1) rfl)
          · split
            · rw [hcons]
              exact congrArg _ (hone _ (i0 + 1) rfl)
            · split
              · rw [hcons]
                exact congrArg _ (hone _ (i0 + 1) rfl)
              · exact htwo wb0 _ (i0 + 1) rfl hlt
        · rw [if_neg hlt, show n - (i0 + 1) = 0 by omega]
          rfl
      · intro wb0 wb1 i1 hleft hi1
        have hle := le_findI2 n getWb (i1 + 1)
        have hend := @findI2_le n getWb (i1 + 1) hi1
        have hcons : List.range' i1 (n - i1) = i1 :: List.range' (i1 + 1) (n - (i1 + 1)) := by
          rw [show n - i1 = n - (i1 + 1) + 1 by omega, range'_succ]
        rw [wbDecisions, hcons, ← range'_split hle hend]
        by_cases hlt : findI2 n getWb (i1 + 1) < n
        · obtain ⟨hone, htwo⟩ := ih (n - findI2 n getWb (i1 + 1)) (by omega)
          rw [if_pos hlt]
          rcases wbStates_cases wb0 wb1 (some (getWb (findI2 n getWb (i1 + 1)))) with
            ⟨next, isBreak, hstate⟩ | ⟨-, hstate⟩
          · rw [outcome_some hstate]
            simp only [cons_append, map_cons, map_append, unbroken_fst, htwo _ _ _ rfl hlt]
          · rw [outcome_none hstate]
            simp only [cons_append, map_cons, map_append, unbroken_fst, hone _ _ rfl]
            rw [show n - findI2 n getWb (i1 + 1) = n - (findI2 n getWb (i1 + 1) + 1) + 1 by omega, range'_succ]
        · obtain ⟨next, isBreak, hstate⟩ := wbStates_none wb0 wb1
          rw [if_neg hlt, outcome_some hstate, show n - findI2 n getWb (i1 + 1) = 0 by omega]
          simp only [map_cons, unbroken_fst, range'_zero, append_nil]

end

/-! ## Segments -/

/-- The parts of a string between breaks that follow each other. -/
def segments (string : List Nat) : List Nat → List (List Nat)
  | start :: stop :: breaks => slice string start stop :: segments string (stop :: breaks)
  | _ => []

theorem segments_flatten (string : List Nat) : ∀ (start : Nat) (breaks : List Nat),
    (start :: breaks).Pairwise (· < ·) → (∀ i ∈ breaks, i < string.length) → start < string.length →
    (segments string (start :: breaks ++ [string.length])).flatten = string.drop start
  | start, [], _, _, hstart => by
      change (slice string start string.length :: []).flatten = _
      rw [flatten_singleton, slice, take_of_length_le (Nat.le_of_eq length_drop)]
  | start, stop :: breaks, hsorted, hbreaks, hstart => by
      have hlt : start < stop := rel_of_pairwise_cons hsorted mem_cons_self
      have hrest := segments_flatten string stop breaks (List.Pairwise.of_cons hsorted)
        (fun i hi => hbreaks i (mem_cons_of_mem stop hi)) (hbreaks stop mem_cons_self)
      change (slice string start stop :: segments string (stop :: breaks ++ [string.length])).flatten = _
      rw [flatten_cons, hrest, slice, show string.drop stop = (string.drop start).drop (stop - start) by
        rw [drop_drop, Nat.add_sub_cancel' (Nat.le_of_lt hlt)], take_append_drop]

/-- The breaks of a string that come from decisions about its boundaries. -/
structure Partitions (string breaks : List Nat) (decisions : List Decision) : Prop where
  /-- Each boundary between two characters is decided once, in order. -/
  once : decisions.map fst = List.range' 1 (string.length - 1)
  /-- What is decided to be a break is reported once, with both ends. -/
  reported : breaks = 0 :: (decisions.filter snd).map fst ++ [string.length]
  first : breaks.head? = some 0
  last : breaks.getLast? = some string.length
  increasing : breaks.Pairwise (· < ·)
  whole : (segments string breaks).flatten = string

theorem partitions_of_once {string : List Nat} (hne : string ≠ []) {decisions : List Decision}
    (h : decisions.map fst = List.range' 1 (string.length - 1)) :
    Partitions string (0 :: (decisions.filter snd).map fst ++ [string.length]) decisions := by
  have hlength : 0 < string.length := length_pos_iff.mpr hne
  have hsub : ((decisions.filter snd).map fst).Sublist (List.range' 1 (string.length - 1)) := by
    rw [← h]
    exact filter_sublist.map fst
  have hmem : ∀ i ∈ (decisions.filter snd).map fst, 0 < i ∧ i < string.length := by
    intro i hi
    have hrange := mem_range'_1.mp (hsub.subset hi)
    omega
  have hsorted : (0 :: (decisions.filter snd).map fst).Pairwise (· < ·) :=
    pairwise_cons.mpr ⟨fun i hi => (hmem i hi).1, List.Pairwise.sublist hsub pairwise_lt_range'⟩
  refine ⟨h, rfl, rfl, ?_, ?_, ?_⟩
  · rw [List.getLast?_append, List.getLast?_singleton, Option.some_or]
  · refine pairwise_append.mpr ⟨hsorted, pairwise_singleton _ _, fun i hi j hj => ?_⟩
    rw [mem_singleton.mp hj]
    rcases mem_cons.mp hi with rfl | hi
    · exact hlength
    · exact (hmem i hi).2
  · rw [segments_flatten string 0 _ hsorted (fun i hi => (hmem i hi).2) hlength, drop_zero]

theorem foldl_report_cons (decisions : List Decision) (breaks : List Nat) :
    decisions.foldl (report List.cons) breaks = ((decisions.filter snd).map fst).reverse ++ breaks := by
  induction decisions generalizing breaks with
  | nil => rfl
  | cons decision decisions ih =>
      obtain ⟨i, isBreak⟩ := decision
      rw [foldl_cons, ih]
      cases isBreak with
      | false => rfl
      | true =>
          rw [filter_cons_of_pos rfl, map_cons, reverse_cons, append_assoc]
          rfl

theorem reverse_breaks (decisions : List Decision) (n : Nat) :
    (n :: decisions.foldl (report List.cons) [0]).reverse
      = 0 :: (decisions.filter snd).map fst ++ [n] := by
  rw [foldl_report_cons, reverse_cons, reverse_append, reverse_reverse]
  rfl

variable (ucdGcbValue : Nat → Gcb) (ucdWbValue : Nat → Wb) (string : List Nat)

/-- The decisions about the grapheme clusters of a string. -/
def clusterDecisions : List Decision :=
  gcbDecisions string.length (fun i => ucdGcbValue (string.getD i 0)) (ucdGcbValue (string.getD 0 0)) 0

/-- The decisions about the words of a string. -/
def wordDecisions : List Decision :=
  wbDecisions string.length (fun i => ucdWbValue (string.getD i 0)) (.one (ucdWbValue (string.getD 0 0)) 0)

variable {string}

theorem findGraphemeClusterBreaks_eq {α : Type} (hne : string ≠ []) (ctx : α) (break' : Nat → α → α) :
    findGraphemeClusterBreaks ucdGcbValue string ctx break'
      = break' string.length ((clusterDecisions ucdGcbValue string).foldl (report break') (break' 0 ctx)) := by
  rw [findGraphemeClusterBreaks, if_pos (length_pos_iff.mpr hne), transition_eq]
  rfl

theorem findWordBreaks_eq {α : Type} (hne : string ≠ []) (ctx : α) (break' : Nat → α → α) :
    findWordBreaks ucdWbValue string ctx break'
      = some (break' string.length ((wordDecisions ucdWbValue string).foldl (report break') (break' 0 ctx))) := by
  rw [findWordBreaks, if_pos (length_pos_iff.mpr hne), (t1_t2_eq break' _).1 _ _ _ rfl]
  rfl

/-- The breaks of a string partition it, for whatever is said of its characters. The empty string has none. -/
theorem segmentation_partitions (string : List Nat) :
    (string = [] → graphemeClusterBreaks ucdGcbValue string = [] ∧ stringWordBreaks ucdWbValue string = some [])
      ∧ (string ≠ [] →
        Partitions string (graphemeClusterBreaks ucdGcbValue string) (clusterDecisions ucdGcbValue string)
          ∧ ∃ breaks, stringWordBreaks ucdWbValue string = some breaks
            ∧ Partitions string breaks (wordDecisions ucdWbValue string)) := by
  refine ⟨?_, fun hne => ⟨?_, ?_⟩⟩
  · rintro rfl
    exact ⟨rfl, rfl⟩
  · rw [graphemeClusterBreaks, findGraphemeClusterBreaks_eq _ hne, reverse_breaks]
    exact partitions_of_once hne (gcbDecisions_fst _ _ _ _)
  · refine ⟨_, ?_, partitions_of_once hne ((wbDecisions_fst _).1 _ _ rfl)⟩
    rw [stringWordBreaks, findWordBreaks_eq _ hne, Option.map_some, reverse_breaks]

theorem segmentation_partitions_three :
    Partitions [0x61, 0x27, 0x62] (graphemeClusterBreaks (fun _ => .other) [0x61, 0x27, 0x62])
        (clusterDecisions (fun _ => .other) [0x61, 0x27, 0x62])
      ∧ ∃ breaks, stringWordBreaks (fun c => if c = 0x27 then .singleQuote else .letter) [0x61, 0x27, 0x62] = some breaks
        ∧ Partitions [0x61, 0x27, 0x62] breaks
          (wordDecisions (fun c => if c = 0x27 then .singleQuote else .letter) [0x61, 0x27, 0x62]) :=
  (segmentation_partitions _ _ _).2 (by decide)

/-- In the empty string not even the ends are breaks. -/
theorem segmentation_empty : (graphemeClusterBreaks (fun _ => .other) []).head? ≠ some 0
    ∧ stringWordBreaks (fun _ => .other) [] = some [] := ⟨by decide, rfl⟩

end MitScheme.Segmentation
