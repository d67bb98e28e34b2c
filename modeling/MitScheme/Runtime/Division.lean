import MitScheme.Microcode.IntegerArithmetic
import Mathlib.Data.Rat.Floor
import Mathlib.Tactic.LinearCombination

/-!
# Integer division

The operators of `division.scm` on exact integers: case analyses on the signs of the operands, each of which
comes down to `quotient` and `remainder` of a numerator that is not negative and a positive denominator.
-/

namespace MitScheme.Division

open Option
open Prod (fst snd)

def quotient (n d : Int) : Option Int := if d = 0 then none else some (n.tdiv d)

def remainder (n d : Int) : Option Int := if d = 0 then none else some (n.tmod d)

/-- The procedure for `ceiling/` of two negative numbers. -/
def ceilingNegNeg (n d : Int) : Option (Int × Int) := do
  let n := 0 - n
  let d := 0 - d
  let q ← quotient n d
  let r ← remainder n d
  some (if r = 0 then (q, r) else (q + 1, d - r))

/-- The procedure for `ceiling/` of two numbers that are not negative. -/
def ceilingPosPos (n d : Int) : Option (Int × Int) := do
  let q ← quotient n d
  let r ← remainder n d
  some (if r = 0 then (q, r) else (q + 1, r - d))

/-- `ceiling/` -/
def ceilingDivide (n d : Int) : Option (Int × Int) :=
  if n < 0 ∧ d < 0 then ceilingNegNeg n d
  else if n < 0 then do
    let n := 0 - n
    let q ← quotient n d
    let r ← remainder n d
    some (0 - q, 0 - r)
  else if d < 0 then do
    let d := 0 - d
    let q ← quotient n d
    let r ← remainder n d
    some (0 - q, r)
  else ceilingPosPos n d

def ceilingQuotient (n d : Int) : Option Int :=
  if n < 0 ∧ d < 0 then (ceilingNegNeg n d).map fst
  else if n < 0 then (quotient (0 - n) d).map fun q => 0 - q
  else if d < 0 then (quotient n (0 - d)).map fun q => 0 - q
  else (ceilingPosPos n d).map fst

def ceilingRemainder (n d : Int) : Option Int :=
  if n < 0 ∧ d < 0 then (ceilingNegNeg n d).map snd
  else if n < 0 then (remainder (0 - n) d).map fun r => 0 - r
  else if d < 0 then remainder n (0 - d)
  else (ceilingPosPos n d).map snd

/-- The procedure for `floor/` of a negative number by a positive one. -/
def floorNegPos (n d : Int) : Option (Int × Int) := do
  let n := 0 - n
  let q ← quotient n d
  let r ← remainder n d
  some (if r = 0 then (0 - q, r) else ((0 - q) - 1, d - r))

/-- The procedure for `floor/` of a number that is not negative by a negative one. -/
def floorPosNeg (n d : Int) : Option (Int × Int) := do
  let d := 0 - d
  let q ← quotient n d
  let r ← remainder n d
  some (if r = 0 then (0 - q, r) else ((0 - q) - 1, r - d))

/-- `floor/` -/
def floorDivide (n d : Int) : Option (Int × Int) :=
  if n < 0 ∧ d < 0 then do
    let n := 0 - n
    let d := 0 - d
    let q ← quotient n d
    let r ← remainder n d
    some (q, 0 - r)
  else if n < 0 then floorNegPos n d
  else if d < 0 then floorPosNeg n d
  else do
    let q ← quotient n d
    let r ← remainder n d
    some (q, r)

def floorQuotient (n d : Int) : Option Int :=
  if n < 0 ∧ d < 0 then quotient (0 - n) (0 - d)
  else if n < 0 then (floorNegPos n d).map fst
  else if d < 0 then (floorPosNeg n d).map fst
  else quotient n d

def floorRemainder (n d : Int) : Option Int :=
  if n < 0 ∧ d < 0 then (remainder (0 - n) (0 - d)).map fun r => 0 - r
  else if n < 0 then (floorNegPos n d).map snd
  else if d < 0 then (floorPosNeg n d).map snd
  else remainder n d

/-- `euclidean/` -/
def euclideanDivide (n d : Int) : Option (Int × Int) :=
  if n < 0 ∧ d < 0 then ceilingNegNeg n d
  else if n < 0 then floorNegPos n d
  else if d < 0 then do
    let d := 0 - d
    let q ← quotient n d
    let r ← remainder n d
    some (0 - q, r)
  else do
    let q ← quotient n d
    let r ← remainder n d
    some (q, r)

def euclideanQuotient (n d : Int) : Option Int :=
  if n < 0 ∧ d < 0 then (ceilingNegNeg n d).map fst
  else if n < 0 then (floorNegPos n d).map fst
  else if d < 0 then (quotient n (0 - d)).map fun q => 0 - q
  else quotient n d

def euclideanRemainder (n d : Int) : Option Int :=
  if n < 0 ∧ d < 0 then (ceilingNegNeg n d).map snd
  else if n < 0 then (floorNegPos n d).map snd
  else if d < 0 then remainder n (0 - d)
  else remainder n d

def divisible (n d : Int) : Option Bool := (remainder n d).map fun r => decide (r = 0)

/-- The procedure `divide` of `round/`. -/
def roundWith (n d : Int) (adjust leave : Int → Int → Int × Int) : Option (Int × Int) := do
  let q ← quotient n d
  let r ← remainder n d
  if r ≠ 0 then do
    let tie ← (if q % 2 ≠ 0 ∧ d % 2 = 0 then do
        let half ← quotient d 2
        divisible n half
      else some false)
    some (if tie = true ∨ d < 2 * r then adjust (q + 1) (r - d) else leave q r)
  else some (leave q r)

/-- `round/` -/
def roundDivide (n d : Int) : Option (Int × Int) :=
  if n < 0 ∧ d < 0 then
    roundWith (0 - n) (0 - d) (fun q r => (q, 0 - r)) fun q r => (q, 0 - r)
  else if n < 0 then
    roundWith (0 - n) d (fun q r => (0 - q, 0 - r)) fun q r => (0 - q, 0 - r)
  else if d < 0 then
    roundWith n (0 - d) (fun q r => (0 - q, r)) fun q r => (0 - q, r)
  else roundWith n d (fun q r => (q, r)) fun q r => (q, r)

def roundQuotient (n d : Int) : Option Int := (roundDivide n d).map fst

def roundRemainder (n d : Int) : Option Int := (roundDivide n d).map snd

/-- `truncate/` -/
def truncateDivide (n d : Int) : Option (Int × Int) :=
  if n < 0 ∧ d < 0 then do
    let n := 0 - n
    let d := 0 - d
    let q ← quotient n d
    let r ← remainder n d
    some (q, 0 - r)
  else if n < 0 then do
    let n := 0 - n
    let q ← quotient n d
    let r ← remainder n d
    some (0 - q, 0 - r)
  else if d < 0 then do
    let d := 0 - d
    let q ← quotient n d
    let r ← remainder n d
    some (0 - q, r)
  else do
    let q ← quotient n d
    let r ← remainder n d
    some (q, r)

def truncateQuotient (n d : Int) : Option Int :=
  if n < 0 ∧ d < 0 then quotient (0 - n) (0 - d)
  else if n < 0 then (quotient (0 - n) d).map fun q => 0 - q
  else if d < 0 then (quotient n (0 - d)).map fun q => 0 - q
  else quotient n d

def truncateRemainder (n d : Int) : Option Int :=
  if n < 0 ∧ d < 0 then (remainder (0 - n) (0 - d)).map fun r => 0 - r
  else if n < 0 then (remainder (0 - n) d).map fun r => 0 - r
  else if d < 0 then remainder n (0 - d)
  else remainder n d

/-! ## Rounding a rational number -/

/-- Towards zero. -/
def truncated (x : ℚ) : Int := if 0 ≤ x then ⌊x⌋ else ⌈x⌉

/-- To the nearest integer, and to the even one of two. -/
def roundedToEven (x : ℚ) : Int :=
  if x - ⌊x⌋ < 1 / 2 then ⌊x⌋
  else if 1 / 2 < x - ⌊x⌋ then ⌊x⌋ + 1
  else if ⌊x⌋ % 2 = 0 then ⌊x⌋ else ⌊x⌋ + 1

/-- So that the remainder is not negative. -/
def euclidean (d : Int) (x : ℚ) : Int := if d < 0 then ⌈x⌉ else ⌊x⌋

variable {n d q r : Int}

theorem floor_eq (h : n = d * q + r) (hr : (0 ≤ r ∧ r < d) ∨ (d < r ∧ r ≤ 0)) : ⌊(n : ℚ) / d⌋ = q := by
  have hn : (n : ℚ) = d * q + r := by exact_mod_cast h
  rw [Int.floor_eq_iff]
  rcases hr with ⟨h0, hlt⟩ | ⟨hlt, h0⟩
  · have hd : (0 : ℚ) < d := by exact_mod_cast h0.trans_lt hlt
    have h0' : (0 : ℚ) ≤ r := by exact_mod_cast h0
    have hlt' : (r : ℚ) < d := by exact_mod_cast hlt
    rw [le_div_iff₀ hd, div_lt_iff₀ hd]
    constructor <;> linarith
  · have hd : (d : ℚ) < 0 := by exact_mod_cast hlt.trans_le h0
    have h0' : (r : ℚ) ≤ 0 := by exact_mod_cast h0
    have hlt' : (d : ℚ) < r := by exact_mod_cast hlt
    rw [le_div_iff_of_neg hd, div_lt_iff_of_neg hd]
    constructor <;> linarith

theorem ceil_eq (h : n = d * q + r) (hr : (r ≤ 0 ∧ -d < r) ∨ (0 ≤ r ∧ r < -d)) : ⌈(n : ℚ) / d⌉ = q := by
  have hneg := @floor_eq (-n) d (-q) (-r) (by rw [h]; ring) (by omega)
  rw [Int.cast_neg, neg_div, Int.floor_neg] at hneg
  omega

theorem truncated_of_nonpos {x : ℚ} (hx : x ≤ 0) : truncated x = ⌈x⌉ := by
  unfold truncated
  split
  · rename_i h0
    rw [le_antisymm hx h0, Int.floor_zero, Int.ceil_zero]
  · rfl

theorem truncated_eq (h : n = d * q + r) (hr : -d < r ∧ r < d ∨ d < r ∧ r < -d)
    (hsign : 0 ≤ n ∧ 0 ≤ r ∨ n ≤ 0 ∧ r ≤ 0) : truncated ((n : ℚ) / d) = q := by
  rcases hr with hd | hd
  · have hpos : (0 : ℚ) ≤ d := by exact_mod_cast (by omega : 0 ≤ d)
    rcases hsign with ⟨hn, h0⟩ | ⟨hn, h0⟩
    · rw [truncated, if_pos (div_nonneg (by exact_mod_cast hn) hpos)]
      exact floor_eq h (by omega)
    · rw [truncated_of_nonpos (div_nonpos_of_nonpos_of_nonneg (by exact_mod_cast hn) hpos)]
      exact ceil_eq h (by omega)
  · have hneg : (d : ℚ) ≤ 0 := by exact_mod_cast (by omega : d ≤ 0)
    rcases hsign with ⟨hn, h0⟩ | ⟨hn, h0⟩
    · rw [truncated_of_nonpos (div_nonpos_of_nonneg_of_nonpos (by exact_mod_cast hn) hneg)]
      exact ceil_eq h (by omega)
    · rw [truncated, if_pos (div_nonneg_of_nonpos (by exact_mod_cast hn) hneg)]
      exact floor_eq h (by omega)

theorem roundedToEven_add {f : ℚ}
    (h : (-(1 / 2) < f ∧ f < 1 / 2) ∨ (q % 2 = 0 ∧ (f = 1 / 2 ∨ f = -(1 / 2)))) :
    roundedToEven (q + f) = q := by
  unfold roundedToEven
  rw [Int.floor_intCast_add]
  rcases le_or_gt 0 f with hf | hf
  · have hfloor : ⌊f⌋ = 0 := by
      rw [Int.floor_eq_zero_iff]
      refine ⟨hf, ?_⟩
      rcases h with ⟨-, hlt⟩ | ⟨-, heq | heq⟩ <;> linarith
    rw [hfloor, add_zero, add_sub_cancel_left]
    rcases h with ⟨-, hlt⟩ | ⟨heven, heq | heq⟩
    · rw [if_pos hlt]
    · rw [if_neg (by linarith), if_neg (by linarith), if_pos heven]
    · linarith
  · have hfloor : ⌊f⌋ = -1 := by
      rw [Int.floor_eq_iff]
      push_cast
      rcases h with ⟨hlt, -⟩ | ⟨-, heq | heq⟩ <;> constructor <;> linarith
    have hrest : (q : ℚ) + f - ((q + -1 : Int) : ℚ) = 1 + f := by
      push_cast
      ring
    rw [hfloor]
    rcases h with ⟨hlt, -⟩ | ⟨heven, heq | heq⟩
    · rw [if_neg (by linarith), if_pos (by linarith)]
      ring
    · linarith
    · rw [if_neg (by linarith), if_neg (by linarith), if_neg (by omega)]
      ring

theorem roundedToEven_eq (h : n = d * q + r) (hd : d ≠ 0)
    (hr : |2 * r| < |d| ∨ (|2 * r| = |d| ∧ q % 2 = 0)) : roundedToEven ((n : ℚ) / d) = q := by
  have hd' : (d : ℚ) ≠ 0 := by exact_mod_cast hd
  have hx : (n : ℚ) / d = q + (r : ℚ) / d := by
    rw [h]
    push_cast
    field_simp
  have habs : |(r : ℚ) / d| = |(r : ℚ)| / |(d : ℚ)| := abs_div _ _
  have hpos : (0 : ℚ) < |(d : ℚ)| := abs_pos.mpr hd'
  rw [hx]
  refine roundedToEven_add ?_
  rcases hr with hlt | ⟨heq, heven⟩
  · left
    have hlt' : 2 * |(r : ℚ)| < |(d : ℚ)| := by
      have hcast : ((|2 * r| : Int) : ℚ) < ((|d| : Int) : ℚ) := by exact_mod_cast hlt
      simpa using hcast
    have hhalf : |(r : ℚ) / d| < 1 / 2 := by
      rw [habs, div_lt_iff₀ hpos]
      linarith
    exact abs_lt.mp hhalf
  · right
    have heq' : 2 * |(r : ℚ)| = |(d : ℚ)| := by
      have hcast : ((|2 * r| : Int) : ℚ) = ((|d| : Int) : ℚ) := by exact_mod_cast heq
      simpa using hcast
    have hhalf : |(r : ℚ) / d| = 1 / 2 := by
      rw [habs, div_eq_iff hpos.ne']
      linarith
    exact ⟨heven, eq_or_eq_neg_of_abs_eq hhalf⟩

theorem divided (hn : 0 ≤ n) (hd : 0 < d) :
    ∃ q r, quotient n d = some q ∧ remainder n d = some r ∧ n = d * q + r ∧ 0 ≤ r ∧ r < d := by
  refine ⟨n.tdiv d, n.tmod d, if_neg hd.ne', if_neg hd.ne', (Int.mul_tdiv_add_tmod n d).symm,
    Int.tmod_nonneg d hn, Int.tmod_lt_of_pos n hd⟩

theorem ceilingNegNeg_eq (hn : n < 0) (hd : d < 0) :
    ∃ q r, ceilingNegNeg n d = some (q, r) ∧ n = d * q + r ∧ 0 ≤ r ∧ r < -d := by
  obtain ⟨q, r, hq, hr, h, h0, hlt⟩ := @divided (0 - n) (0 - d) (by omega) (by omega)
  unfold ceilingNegNeg
  dsimp only
  rw [hq, hr]
  by_cases hr0 : r = 0
  · refine ⟨q, r, congrArg some (if_pos hr0), ?_, h0, by omega⟩
    rw [hr0] at h ⊢
    linear_combination -h
  · refine ⟨q + 1, 0 - d - r, congrArg some (if_neg hr0), ?_, by omega, by omega⟩
    linear_combination -h

theorem ceilingPosPos_eq (hn : 0 ≤ n) (hd : 0 < d) :
    ∃ q r, ceilingPosPos n d = some (q, r) ∧ n = d * q + r ∧ r ≤ 0 ∧ -d < r := by
  obtain ⟨q, r, hq, hr, h, h0, hlt⟩ := divided hn hd
  unfold ceilingPosPos
  rw [hq, hr]
  by_cases hr0 : r = 0
  · exact ⟨q, r, congrArg some (if_pos hr0), h, by omega, by omega⟩
  · refine ⟨q + 1, r - d, congrArg some (if_neg hr0), ?_, by omega, by omega⟩
    linear_combination h

theorem floorNegPos_eq (hn : n < 0) (hd : 0 < d) :
    ∃ q r, floorNegPos n d = some (q, r) ∧ n = d * q + r ∧ 0 ≤ r ∧ r < d := by
  obtain ⟨q, r, hq, hr, h, h0, hlt⟩ := @divided (0 - n) d (by omega) hd
  unfold floorNegPos
  dsimp only
  rw [hq, hr]
  by_cases hr0 : r = 0
  · refine ⟨0 - q, r, congrArg some (if_pos hr0), ?_, h0, hlt⟩
    rw [hr0] at h ⊢
    linear_combination -h
  · refine ⟨0 - q - 1, d - r, congrArg some (if_neg hr0), ?_, by omega, by omega⟩
    linear_combination -h

theorem floorPosNeg_eq (hn : 0 ≤ n) (hd : d < 0) :
    ∃ q r, floorPosNeg n d = some (q, r) ∧ n = d * q + r ∧ d < r ∧ r ≤ 0 := by
  obtain ⟨q, r, hq, hr, h, h0, hlt⟩ := @divided n (0 - d) hn (by omega)
  unfold floorPosNeg
  dsimp only
  rw [hq, hr]
  by_cases hr0 : r = 0
  · refine ⟨0 - q, r, congrArg some (if_pos hr0), ?_, by omega, by omega⟩
    linear_combination h
  · refine ⟨0 - q - 1, r - (0 - d), congrArg some (if_neg hr0), ?_, by omega, by omega⟩
    linear_combination h

/-! ## The families -/

/-- An operator, and those for its two results, by the way it rounds. -/
def Family (divide : Int → Int → Option (Int × Int)) (quotientOnly remainderOnly : Int → Int → Option Int)
    (rounded : ℚ → Int) (n d : Int) : Prop :=
  ∃ q r, divide n d = some (q, r) ∧ quotientOnly n d = some q ∧ remainderOnly n d = some r ∧ n = d * q + r
    ∧ q = rounded ((n : ℚ) / d)

section Signs

variable {α : Type} {a b c e : α}

/-! The case analysis of the operators, for each combination of signs. -/

theorem signs_neg_neg (hn : n < 0) (hd : d < 0) :
    (if n < 0 ∧ d < 0 then a else if n < 0 then b else if d < 0 then c else e) = a := if_pos ⟨hn, hd⟩

theorem signs_neg_pos (hn : n < 0) (hd : 0 < d) :
    (if n < 0 ∧ d < 0 then a else if n < 0 then b else if d < 0 then c else e) = b := by
  rw [if_neg (by omega), if_pos hn]

theorem signs_pos_neg (hn : 0 ≤ n) (hd : d < 0) :
    (if n < 0 ∧ d < 0 then a else if n < 0 then b else if d < 0 then c else e) = c := by
  rw [if_neg (by omega), if_neg (by omega), if_pos hd]

theorem signs_pos_pos (hn : 0 ≤ n) (hd : 0 < d) :
    (if n < 0 ∧ d < 0 then a else if n < 0 then b else if d < 0 then c else e) = e := by
  rw [if_neg (by omega), if_neg (by omega), if_neg (by omega)]

end Signs

theorem ceiling_family (hd : d ≠ 0) :
    Family ceilingDivide ceilingQuotient ceilingRemainder Int.ceil n d := by
  unfold Family ceilingDivide ceilingQuotient ceilingRemainder
  rcases lt_or_ge n 0 with hn | hn
  · rcases lt_or_gt_of_ne hd with hneg | hpos
    · obtain ⟨q, r, heq, h, hr⟩ := ceilingNegNeg_eq hn hneg
      simp only [signs_neg_neg hn hneg, heq]
      exact ⟨q, r, rfl, rfl, rfl, h, (ceil_eq h (by omega)).symm⟩
    · obtain ⟨q, r, hq, hr, h, h0, hlt⟩ := @divided (0 - n) d (by omega) hpos
      have heq : n = d * (0 - q) + (0 - r) := by linear_combination -h
      simp only [signs_neg_pos hn hpos, hq, hr]
      exact ⟨0 - q, 0 - r, rfl, rfl, rfl, heq, (ceil_eq heq (by omega)).symm⟩
  · rcases lt_or_gt_of_ne hd with hneg | hpos
    · obtain ⟨q, r, hq, hr, h, h0, hlt⟩ := @divided n (0 - d) hn (by omega)
      have heq : n = d * (0 - q) + r := by linear_combination h
      simp only [signs_pos_neg hn hneg, hq, hr]
      exact ⟨0 - q, r, rfl, rfl, rfl, heq, (ceil_eq heq (by omega)).symm⟩
    · obtain ⟨q, r, heq, h, hr⟩ := ceilingPosPos_eq hn hpos
      simp only [signs_pos_pos hn hpos, heq]
      exact ⟨q, r, rfl, rfl, rfl, h, (ceil_eq h (by omega)).symm⟩

theorem floor_family (hd : d ≠ 0) :
    Family floorDivide floorQuotient floorRemainder Int.floor n d := by
  unfold Family floorDivide floorQuotient floorRemainder
  rcases lt_or_ge n 0 with hn | hn
  · rcases lt_or_gt_of_ne hd with hneg | hpos
    · obtain ⟨q, r, hq, hr, h, h0, hlt⟩ := @divided (0 - n) (0 - d) (by omega) (by omega)
      have heq : n = d * q + (0 - r) := by linear_combination -h
      simp only [signs_neg_neg hn hneg, hq, hr]
      exact ⟨q, 0 - r, rfl, rfl, rfl, heq, (floor_eq heq (by omega)).symm⟩
    · obtain ⟨q, r, heq, h, hr⟩ := floorNegPos_eq hn hpos
      simp only [signs_neg_pos hn hpos, heq]
      exact ⟨q, r, rfl, rfl, rfl, h, (floor_eq h (by omega)).symm⟩
  · rcases lt_or_gt_of_ne hd with hneg | hpos
    · obtain ⟨q, r, heq, h, hr⟩ := floorPosNeg_eq hn hneg
      simp only [signs_pos_neg hn hneg, heq]
      exact ⟨q, r, rfl, rfl, rfl, h, (floor_eq h (by omega)).symm⟩
    · obtain ⟨q, r, hq, hr, h, h0, hlt⟩ := divided hn hpos
      simp only [signs_pos_pos hn hpos, hq, hr]
      exact ⟨q, r, rfl, rfl, rfl, h, (floor_eq h (by omega)).symm⟩

theorem euclidean_family (hd : d ≠ 0) :
    ∃ q r, euclideanDivide n d = some (q, r) ∧ euclideanQuotient n d = some q ∧ euclideanRemainder n d = some r
      ∧ n = d * q + r ∧ q = euclidean d ((n : ℚ) / d) ∧ 0 ≤ r ∧ r < |d| := by
  unfold euclideanDivide euclideanQuotient euclideanRemainder
  rcases lt_or_gt_of_ne hd with hneg | hpos
  · have hround : euclidean d ((n : ℚ) / d) = ⌈(n : ℚ) / d⌉ := if_pos hneg
    rw [abs_of_neg hneg, hround]
    rcases lt_or_ge n 0 with hn | hn
    · obtain ⟨q, r, heq, h, hr⟩ := ceilingNegNeg_eq hn hneg
      simp only [signs_neg_neg hn hneg, heq]
      exact ⟨q, r, rfl, rfl, rfl, h, (ceil_eq h (by omega)).symm, hr⟩
    · obtain ⟨q, r, hq, hr, h, h0, hlt⟩ := @divided n (0 - d) hn (by omega)
      have heq : n = d * (0 - q) + r := by linear_combination h
      simp only [signs_pos_neg hn hneg, hq, hr]
      exact ⟨0 - q, r, rfl, rfl, rfl, heq, (ceil_eq heq (by omega)).symm, h0, by omega⟩
  · have hround : euclidean d ((n : ℚ) / d) = ⌊(n : ℚ) / d⌋ := if_neg (by omega)
    rw [abs_of_pos hpos, hround]
    rcases lt_or_ge n 0 with hn | hn
    · obtain ⟨q, r, heq, h, hr⟩ := floorNegPos_eq hn hpos
      simp only [signs_neg_pos hn hpos, heq]
      exact ⟨q, r, rfl, rfl, rfl, h, (floor_eq h (by omega)).symm, hr⟩
    · obtain ⟨q, r, hq, hr, h, h0, hlt⟩ := divided hn hpos
      simp only [signs_pos_pos hn hpos, hq, hr]
      exact ⟨q, r, rfl, rfl, rfl, h, (floor_eq h (by omega)).symm, h0, hlt⟩

theorem truncate_family (hd : d ≠ 0) :
    Family truncateDivide truncateQuotient truncateRemainder truncated n d := by
  unfold Family truncateDivide truncateQuotient truncateRemainder
  rcases lt_or_ge n 0 with hn | hn
  · rcases lt_or_gt_of_ne hd with hneg | hpos
    · obtain ⟨q, r, hq, hr, h, h0, hlt⟩ := @divided (0 - n) (0 - d) (by omega) (by omega)
      have heq : n = d * q + (0 - r) := by linear_combination -h
      simp only [signs_neg_neg hn hneg, hq, hr]
      exact ⟨q, 0 - r, rfl, rfl, rfl, heq, (truncated_eq heq (by omega) (by omega)).symm⟩
    · obtain ⟨q, r, hq, hr, h, h0, hlt⟩ := @divided (0 - n) d (by omega) hpos
      have heq : n = d * (0 - q) + (0 - r) := by linear_combination -h
      simp only [signs_neg_pos hn hpos, hq, hr]
      exact ⟨0 - q, 0 - r, rfl, rfl, rfl, heq, (truncated_eq heq (by omega) (by omega)).symm⟩
  · rcases lt_or_gt_of_ne hd with hneg | hpos
    · obtain ⟨q, r, hq, hr, h, h0, hlt⟩ := @divided n (0 - d) hn (by omega)
      have heq : n = d * (0 - q) + r := by linear_combination h
      simp only [signs_pos_neg hn hneg, hq, hr]
      exact ⟨0 - q, r, rfl, rfl, rfl, heq, (truncated_eq heq (by omega) (by omega)).symm⟩
    · obtain ⟨q, r, hq, hr, h, h0, hlt⟩ := divided hn hpos
      simp only [signs_pos_pos hn hpos, hq, hr]
      exact ⟨q, r, rfl, rfl, rfl, h, (truncated_eq h (by omega) (by omega)).symm⟩

/-! ## Ties -/

/-- **The test for a tie**, of a numerator that is not divided evenly. -/
theorem divisible_half (h : n = d * q + r) (hr : 0 < r) (hlt : r < d) (heven : d % 2 = 0) :
    divisible n (d.tdiv 2) = some (decide (2 * r = d)) := by
  obtain ⟨half, hhalf⟩ : ∃ half, d = 2 * half := ⟨d / 2, by omega⟩
  have htdiv : d.tdiv 2 = half := by
    rw [hhalf]
    exact Int.mul_tdiv_cancel_left half (by decide)
  have hne : half ≠ 0 := by omega
  unfold divisible remainder
  rw [htdiv, if_neg hne]
  refine congrArg some (decide_eq_decide.mpr ⟨fun hmod => ?_, fun htie => ?_⟩)
  · have hdvd : half ∣ r := by
      have hn : half ∣ n := Int.dvd_of_tmod_eq_zero hmod
      have hdq : half ∣ d * q := Dvd.dvd.mul_right ⟨2, by omega⟩ q
      have hsub := Int.dvd_sub hn hdq
      rwa [h, add_sub_cancel_left] at hsub
    obtain ⟨k, hk⟩ := hdvd
    have hpos : 0 < half := by omega
    have hk0 : 0 < k := by
      by_contra hle
      have := Int.mul_nonpos_of_nonneg_of_nonpos hpos.le (not_lt.mp hle)
      omega
    have hk2 : k < 2 := by
      by_contra hge
      have := Int.mul_le_mul_of_nonneg_left (not_lt.mp hge) hpos.le
      omega
    obtain rfl : k = 1 := by omega
    omega
  · have hr' : r = half := by omega
    refine Int.tmod_eq_zero_of_dvd ⟨2 * q + 1, ?_⟩
    rw [h, hr', hhalf]
    ring

/-- **The procedure `divide` of `round/`** leaves a remainder of at most half of the divisor, and an even quotient
where it is just a half. -/
theorem roundWith_eq (hn : 0 ≤ n) (hd : 0 < d) (finish : Int → Int → Int × Int) :
    ∃ q r, roundWith n d finish finish = some (finish q r) ∧ n = d * q + r
      ∧ (|2 * r| < d ∨ (|2 * r| = d ∧ q % 2 = 0)) := by
  obtain ⟨q, r, hq, hr, h, h0, hlt⟩ := divided hn hd
  have hup : n = d * (q + 1) + (r - d) := by linear_combination h
  have habs : |2 * r| = 2 * r := abs_of_nonneg (by omega)
  have habsup : |2 * (r - d)| = 2 * (d - r) := by
    rw [abs_of_nonpos (by omega)]
    ring
  unfold roundWith
  rw [hq, hr]
  simp only [bind_eq_bind, bind_some]
  by_cases hr0 : r = 0
  · rw [if_neg (not_not.mpr hr0)]
    refine ⟨q, r, rfl, h, Or.inl ?_⟩
    omega
  · rw [if_pos hr0]
    by_cases hodd : q % 2 ≠ 0 ∧ d % 2 = 0
    · have hhalf : quotient d 2 = some (d.tdiv 2) := if_neg (by decide)
      rw [if_pos hodd, hhalf, bind_some, divisible_half h (by omega) hlt hodd.2, bind_some]
      by_cases htie : 2 * r = d ∨ d < 2 * r
      · refine ⟨q + 1, r - d, ?_, hup, ?_⟩
        · rw [if_pos (by simpa using htie)]
        · omega
      · refine ⟨q, r, ?_, h, ?_⟩
        · rw [if_neg (by simpa using htie)]
        · omega
    · rw [if_neg hodd, bind_some]
      by_cases hlarge : d < 2 * r
      · refine ⟨q + 1, r - d, ?_, hup, Or.inl ?_⟩
        · rw [if_pos (Or.inr hlarge)]
        · omega
      · refine ⟨q, r, ?_, h, ?_⟩
        · rw [if_neg (by simpa using hlarge)]
        · omega

theorem round_family (hd : d ≠ 0) : Family roundDivide roundQuotient roundRemainder roundedToEven n d := by
  have hfamily : ∀ q r, roundDivide n d = some (q, r) → n = d * q + r →
      (|2 * r| < |d| ∨ (|2 * r| = |d| ∧ q % 2 = 0)) →
      Family roundDivide roundQuotient roundRemainder roundedToEven n d := by
    intro q r hdivide h hr
    refine ⟨q, r, hdivide, ?_, ?_, h, (roundedToEven_eq h hd hr).symm⟩
    · rw [roundQuotient, hdivide, map_some]
    · rw [roundRemainder, hdivide, map_some]
  rcases lt_or_ge n 0 with hn | hn
  · rcases lt_or_gt_of_ne hd with hneg | hpos
    · obtain ⟨q, r, hround, h, hr⟩ := @roundWith_eq (0 - n) (0 - d) (by omega) (by omega) fun q r => (q, 0 - r)
      refine hfamily q (0 - r) ?_ (by linear_combination -h) ?_
      · rw [roundDivide, signs_neg_neg hn hneg, hround]
      · rw [abs_of_neg hneg, mul_sub, mul_zero, zero_sub, abs_neg]
        omega
    · obtain ⟨q, r, hround, h, hr⟩ := @roundWith_eq (0 - n) d (by omega) hpos fun q r => (0 - q, 0 - r)
      refine hfamily (0 - q) (0 - r) ?_ (by linear_combination -h) ?_
      · rw [roundDivide, signs_neg_pos hn hpos, hround]
      · rw [abs_of_pos hpos, mul_sub, mul_zero, zero_sub, abs_neg]
        omega
  · rcases lt_or_gt_of_ne hd with hneg | hpos
    · obtain ⟨q, r, hround, h, hr⟩ := @roundWith_eq n (0 - d) hn (by omega) fun q r => (0 - q, r)
      refine hfamily (0 - q) r ?_ (by linear_combination h) ?_
      · rw [roundDivide, signs_pos_neg hn hneg, hround]
      · rw [abs_of_neg hneg]
        omega
    · obtain ⟨q, r, hround, h, hr⟩ := roundWith_eq hn hpos fun q r => (q, r)
      refine hfamily q r ?_ h ?_
      · rw [roundDivide, signs_pos_pos hn hpos, hround]
      · rw [abs_of_pos hpos]
        exact hr

theorem integerQuotient_of_quotient {w : Word} (hq : quotient n d = some q) (hs : LengthSurvives w q) :
    Returns w (integerQuotient w (ExactInteger.ofInt w n) (ExactInteger.ofInt w d)) q := by
  unfold quotient at hq
  split at hq
  · cases hq
  · rename_i hd
    cases hq
    exact ((integerQuotient_divides n d).2 hd).mpr hs

theorem integerRemainder_of_remainder {w : Word} (hr : remainder n d = some r) (hs : LengthSurvives w r) :
    Returns w (integerRemainder w (ExactInteger.ofInt w n) (ExactInteger.ofInt w d)) r := by
  unfold remainder at hr
  split at hr
  · cases hr
  · rename_i hd
    cases hr
    exact ((integerRemainder_divides n d).2 hd).mpr hs

/-- **The five families of division operators.** Each of them divides with the quotient rounded in its way, the
remainder is what is left, and the operators for one of the two results agree with it. The primitives that they
use give the same integers for fixnums and for bignums. -/
theorem division_families (n d : Int) (hd : d ≠ 0) :
    Family ceilingDivide ceilingQuotient ceilingRemainder Int.ceil n d
    ∧ (Family euclideanDivide euclideanQuotient euclideanRemainder (euclidean d) n d
      ∧ ∃ q r, euclideanDivide n d = some (q, r) ∧ 0 ≤ r ∧ r < |d|)
    ∧ Family floorDivide floorQuotient floorRemainder Int.floor n d
    ∧ Family roundDivide roundQuotient roundRemainder roundedToEven n d
    ∧ Family truncateDivide truncateQuotient truncateRemainder truncated n d
    ∧ (∀ (w : Word) (q : Int), quotient n d = some q → LengthSurvives w q →
      Returns w (integerQuotient w (ExactInteger.ofInt w n) (ExactInteger.ofInt w d)) q)
    ∧ ∀ (w : Word) (r : Int), remainder n d = some r → LengthSurvives w r →
      Returns w (integerRemainder w (ExactInteger.ofInt w n) (ExactInteger.ofInt w d)) r := by
  obtain ⟨q, r, hdivide, hquotient, hremainder, h, hround, hr⟩ := euclidean_family (n := n) hd
  exact ⟨ceiling_family hd, ⟨⟨q, r, hdivide, hquotient, hremainder, h, hround⟩, q, r, hdivide, hr⟩,
    floor_family hd, round_family hd, truncate_family hd, fun w q => integerQuotient_of_quotient,
    fun w r => integerRemainder_of_remainder⟩

theorem division_families_seven :
    Family roundDivide roundQuotient roundRemainder roundedToEven 7 (-2) :=
  (division_families 7 (-2) (by decide)).2.2.2.1

end MitScheme.Division
