import MitScheme.Runtime.NormalizationQuickCheck

/-!
# Strings as characters

The operations of `ustring.scm` on strings of any kind, where the bytes do not matter.
-/

namespace MitScheme.Strings

open Normalization (Str Tables)

inductive Error where
  | notA (predicate caller : String)
  | badRangeArgument (index : Nat) (caller : String)
  | wrongTypeArgument (primitive : String)
  deriving DecidableEq

def stringLength : Str → Nat
  | .ustring string => string.chars.length
  | .slice _ _ length => length

/-- `string-ref`. A slice does not go on after its string. -/
def stringRef (string : Str) (index : Nat) : Except Error Nat :=
  match string with
  | .ustring string =>
      if index < string.chars.length then .ok (string.chars.getD index 0)
      else .error (.badRangeArgument index "string-ref")
  | .slice string start length =>
      if index < length then .ok (string.chars.getD (start + index) 0)
      else .error (.badRangeArgument index "string-ref")

def fixEndIndex (stop : Option Nat) (length : Nat) (caller : String) : Except Error Nat :=
  match stop with
  | none => .ok length
  | some stop => if stop ≤ length then .ok stop else .error (.badRangeArgument stop caller)

/-- `fix:<=`, which is made of `fix:>`. What is compared with may be the default object, which is no fixnum. -/
def fixLe (n : Nat) : Option Nat → Except Error Bool
  | none => .error (.wrongTypeArgument "greater-than-fixnum?")
  | some m => .ok (n ≤ m)

def fixStartIndex (start stop : Option Nat) (caller : String) : Except Error Nat :=
  match start with
  | none => .ok 0
  | some start => do
      if ← fixLe start stop then return start
      else throw (.badRangeArgument start caller)

/-! ## What they are -/

variable {T : Tables} {string : Str}

theorem length_chars (h : string.Valid T) : string.chars.length = stringLength string := by
  cases string with
  | ustring string => rfl
  | slice string start length =>
      rw [Str.chars, length_slice h.2]
      exact Nat.add_sub_cancel_left start length

theorem stringRef_eq (h : string.Valid T) {index : Nat} (hindex : index < stringLength string) :
    stringRef string index = .ok (string.chars.getD index 0) := by
  cases string with
  | ustring string => exact if_pos hindex
  | slice string start length =>
      refine (if_pos hindex).trans (congrArg Except.ok ?_)
      have hlt : start + index < start + length := Nat.add_lt_add_left hindex start
      rw [Str.chars, List.getD_eq_getElem?_getD, List.getD_eq_getElem?_getD, getElem?_slice hlt]

theorem fixStartIndex_some {stop : Nat} {start : Option Nat} {caller : String} (h : start.getD 0 ≤ stop) :
    fixStartIndex start (some stop) caller = .ok (start.getD 0) := by
  cases start with
  | none => rfl
  | some start =>
      have hle : start ≤ stop := h
      change (if decide (start ≤ stop) = true then _ else _) = _
      rw [if_pos (decide_eq_true hle)]
      rfl

/-!
## String search

`string-search-forward`, `string-search-backward` and `string-search-all` of `ustring.scm`: the pattern is tried
at one index after another.
-/

variable (pattern : Str) (pend : Nat) (text : Str)

/-- The inner loop of a search, which stops after the pattern or at the first character that differs. -/
def matchLoop (pi ti : Nat) : Except Error (Option Nat) :=
  if pi < pend then do
    if (← stringRef pattern pi) = (← stringRef text ti) then matchLoop (pi + 1) (ti + 1)
    else return none
  else return some ti
termination_by pend - pi

def dumbStringSearchForward (tstart : Nat) (tlast : Int) : Except Error (Option Nat) :=
  if tstart ≤ tlast then do
    match ← matchLoop pattern pend text 0 tstart with
    | some _ => return some tstart
    | none => dumbStringSearchForward (tstart + 1) tlast
  else return none
termination_by (tlast + 1 - tstart).toNat

def dumbStringSearchBackward (tstart : Nat) (tlast : Int) : Except Error (Option Nat) :=
  if tlast ≥ tstart then do
    match ← matchLoop pattern pend text 0 tlast.toNat with
    | some ti => return some ti
    | none => dumbStringSearchBackward tstart (tlast - 1)
  else return none
termination_by (tlast + 1 - tstart).toNat

/-- The loop of `%dumb-string-search-all`. -/
def findMatches (tstart : Nat) (tindex : Int) (occurrences : List Nat) : Except Error (List Nat) :=
  if tindex ≥ tstart then do
    match ← matchLoop pattern pend text 0 tindex.toNat with
    | some _ => findMatches tstart (tindex - 1) (tindex.toNat :: occurrences)
    | none => findMatches tstart (tindex - 1) occurrences
  else return occurrences
termination_by (tindex + 1 - tstart).toNat

def dumbStringSearchAll (tstart : Nat) (tlast : Int) : Except Error (List Nat) :=
  findMatches pattern pend text tstart tlast []

variable (T : Tables)

def guaranteeNfcString (string : Str) (caller : String) : Except Error Unit :=
  if Normalization.stringInNfc T string then .ok () else .error (.notA "nfc-string" caller)

/-- `string-matcher`. The start is checked against the end as it was given. -/
def stringMatcher {α : Type} (caller : String) (matcher : Str → Nat → Str → Nat → Int → Except Error α)
    (pattern text : Str) (start stop : Option Nat) : Except Error α := do
  guaranteeNfcString T pattern caller
  guaranteeNfcString T text caller
  let pend := stringLength pattern
  if pend = 0 then throw (.badRangeArgument pend caller)
  let tend ← fixEndIndex stop (stringLength text) caller
  let tstart ← fixStartIndex start stop caller
  matcher pattern pend text tstart (tend - pend)

def stringSearchForward : Str → Str → Option Nat → Option Nat → Except Error (Option Nat) :=
  stringMatcher T "string-search-forward" dumbStringSearchForward

def stringSearchBackward : Str → Str → Option Nat → Option Nat → Except Error (Option Nat) :=
  stringMatcher T "string-search-backward" dumbStringSearchBackward

def stringSearchAll : Str → Str → Option Nat → Option Nat → Except Error (List Nat) :=
  stringMatcher T "string-search-all" dumbStringSearchAll

end MitScheme.Strings
