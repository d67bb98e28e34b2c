import MitScheme.Compiler.IntervalsProof

/-!
# Interval arithmetic of the passes

The passes of the assembler only add and subtract, and stay with integers. What they compute is what the
operators make of the same intervals over the rational numbers. Points are told apart by their least values alone,
so the arithmetic is exact when every point is taken at its least value.
-/

namespace MitScheme.Intervals

open Assembler (Point)
open StepFunctions List

/-! ## Integers are rational numbers -/

def ofSegment (s : Assembler.Segment) : Segment := (s.point, s.coeff)

def ofInterval : Assembler.Interval → Interval
  | .number n => .number n
  | .interval offset segset => .interval offset (segset.map ofSegment)

theorem ofSegment_consSegset (point : Point) (coeff : Int) (segset : List Assembler.Segment) :
    (Assembler.consSegset point coeff segset).map ofSegment
      = consSegset point coeff (segset.map ofSegment) := by
  cases segset with
  | nil =>
      rw [Assembler.consSegset, consSegset, map_nil, leading]
      by_cases h : coeff = 0
      · rw [if_pos h, if_pos (by exact_mod_cast h), map_nil]
      · rw [if_neg h, if_neg (by exact_mod_cast h), map_cons, map_nil]
        rfl
  | cons s segset =>
      rw [Assembler.consSegset, consSegset, map_cons, leading]
      by_cases h : coeff = s.coeff
      · rw [if_pos h, if_pos (by rw [ofSegment, h]), map_cons]
      · have hne : (coeff : ℚ) ≠ (ofSegment s).2 := fun heq => h (Int.cast_injective heq)
        rw [if_neg h, if_neg hne, map_cons, map_cons]
        rfl

theorem ofSegment_scale (b : List Assembler.Segment) (c : Int) :
    (Assembler.segsetScale b c).map ofSegment = segsetScale (b.map ofSegment) c := by
  rw [Assembler.segsetScale, segsetScale, List.map_map, List.map_map]
  refine map_congr_left fun s _ => ?_
  simp only [Function.comp_apply, ofSegment, Int.cast_mul]

variable {opInt : Int → Int → Int} {op : ℚ → ℚ → ℚ}
  {aloneInt : List Assembler.Segment → List Assembler.Segment} {alone : List Segment → List Segment}

theorem ofSegment_mergeFrom (hop : ∀ j k, ((opInt j k : Int) : ℚ) = op j k) {s : Assembler.Segment}
    {a : List Assembler.Segment} {rest : List Assembler.Segment → List Assembler.Segment}
    (hrest : ∀ b, (rest b).map ofSegment = segsetMerge op alone (a.map ofSegment) (b.map ofSegment))
    (b : List Assembler.Segment) :
    (Assembler.segsetMergeFrom opInt s a rest b).map ofSegment
      = segsetMerge op alone ((s :: a).map ofSegment) (b.map ofSegment) := by
  induction b with
  | nil => rw [Assembler.segsetMergeFrom, map_nil, map_cons, segsetMerge]
  | cons t b ih =>
      rw [Assembler.segsetMergeFrom, map_cons, map_cons, segsetMerge]
      split
      · rename_i hlt
        rw [if_pos (show (ofSegment s).1.min < (ofSegment t).1.min from hlt), ofSegment_consSegset, hrest,
          hop, map_cons]
        rfl
      · rename_i hnlt
        rw [if_neg (show ¬ (ofSegment s).1.min < (ofSegment t).1.min from hnlt), ofSegment_consSegset, hop]
        split
        · rename_i heq
          rw [if_pos (show (ofSegment s).1.min = (ofSegment t).1.min from heq), hrest]
          rfl
        · rename_i hne
          rw [if_neg (show ¬ (ofSegment s).1.min = (ofSegment t).1.min from hne), ih, map_cons]
          rfl

theorem ofSegment_merge (hop : ∀ j k, ((opInt j k : Int) : ℚ) = op j k)
    (halone : ∀ b, (aloneInt b).map ofSegment = alone (b.map ofSegment)) (a : List Assembler.Segment) :
    ∀ b, (Assembler.segsetMerge opInt aloneInt a b).map ofSegment
      = segsetMerge op alone (a.map ofSegment) (b.map ofSegment) := by
  induction a with
  | nil =>
      intro b
      rw [Assembler.segsetMerge, map_nil, segsetMerge, halone]
  | cons s a ih =>
      intro b
      exact ofSegment_mergeFrom hop ih b

theorem ofInterval_makeInterval (offset : Int) (segset : List Assembler.Segment) :
    ofInterval (Assembler.makeInterval offset segset) = makeInterval offset (segset.map ofSegment) := by
  cases segset with
  | nil => rfl
  | cons s segset => rfl

/-- **On integers the operators are those on rational numbers.** -/
theorem ofInterval_plus (x y : Assembler.Interval) :
    ofInterval (Assembler.intervalPlus x y) = intervalPlus (ofInterval x) (ofInterval y) := by
  cases x with
  | number m =>
      cases y with
      | number n => exact congrArg Interval.number (Int.cast_add m n)
      | interval n segsetY =>
          rw [Assembler.intervalPlus, ofInterval_makeInterval, Int.cast_add]
          rfl
  | interval m segsetX =>
      cases y with
      | number n =>
          rw [Assembler.intervalPlus, ofInterval_makeInterval, Int.cast_add]
          rfl
      | interval n segsetY =>
          rw [Assembler.intervalPlus, ofInterval_makeInterval, Int.cast_add, Assembler.segsetPlus,
            ofSegment_merge (show ∀ j k : Int, ((j + k : Int) : ℚ) = (j : ℚ) + k from Int.cast_add)
              fun b => show (id b).map ofSegment = id (b.map ofSegment) from rfl]
          rfl

theorem ofInterval_minus (x y : Assembler.Interval) :
    ofInterval (Assembler.intervalMinus x y) = intervalMinus (ofInterval x) (ofInterval y) := by
  have hnegate : ∀ b, (Assembler.segsetNegate b).map ofSegment = segsetNegate (b.map ofSegment) := by
    intro b
    rw [Assembler.segsetNegate, ofSegment_scale, segsetNegate, Int.cast_neg, Int.cast_one]
  cases x with
  | number m =>
      cases y with
      | number n => exact congrArg Interval.number (Int.cast_sub m n)
      | interval n segsetY =>
          rw [Assembler.intervalMinus, ofInterval_makeInterval, Int.cast_sub, hnegate]
          rfl
  | interval m segsetX =>
      cases y with
      | number n =>
          rw [Assembler.intervalMinus, ofInterval_makeInterval, Int.cast_sub]
          rfl
      | interval n segsetY =>
          rw [Assembler.intervalMinus, ofInterval_makeInterval, Int.cast_sub, Assembler.segsetMinus,
            ofSegment_merge (show ∀ j k : Int, ((j - k : Int) : ℚ) = (j : ℚ) - k from Int.cast_sub) hnegate]
          rfl

theorem at_ofInterval (position : Point → Int) (x : Assembler.Interval) :
    (ofInterval x).at (fun p => position p) = x.at position := by
  have htotal : ∀ (segset : List Assembler.Segment) (base : Int),
      total (fun p => (position p : ℚ)) base (segset.map ofSegment)
        = Assembler.sumSegments position base segset := by
    intro segset
    induction segset with
    | nil => exact fun _ => rfl
    | cons s segset ih =>
        intro base
        rw [map_cons, total, Assembler.sumSegments]
        push_cast
        rw [← ih]
        rfl
  cases x with
  | number n => rfl
  | interval offset segset =>
      rw [ofInterval, Interval.at, Assembler.Interval.at, Int.cast_add, ← htotal, Int.cast_zero]

end MitScheme.Intervals

namespace MitScheme.Assembler

open Intervals (ofInterval ofInterval_plus ofInterval_minus at_ofInterval)

/-- The segments of an interval. -/
def Interval.segments : Interval → List Segment
  | .number _ => []
  | .interval _ segset => segset

theorem at_plus (a b : Interval) : (a + b).at Point.min = a.at Point.min + b.at Point.min := by
  have hagree : Intervals.Agree (fun p => p.min) (ofInterval a).segments (ofInterval b).segments :=
    fun s _ t _ heq => congrArg Int.cast heq
  have h := Intervals.at_plus hagree
  rw [← ofInterval_plus, at_ofInterval, at_ofInterval, at_ofInterval] at h
  exact_mod_cast h

theorem at_minus (a b : Interval) : (a - b).at Point.min = a.at Point.min - b.at Point.min := by
  have hagree : Intervals.Agree (fun p => p.min) (ofInterval a).segments (ofInterval b).segments :=
    fun s _ t _ heq => congrArg Int.cast heq
  have h := Intervals.at_minus hagree
  rw [← ofInterval_minus, at_ofInterval, at_ofInterval, at_ofInterval] at h
  exact_mod_cast h

theorem finalValue_between (interval : Interval) :
    (intervalValues interval).1 ≤ intervalFinalValue interval
      ∧ intervalFinalValue interval ≤ (intervalValues interval).2 := by
  unfold intervalValues intervalFinalValue
  dsimp only
  split
  · exact ⟨le_refl _, by assumption⟩
  · exact ⟨by omega, le_refl _⟩

end MitScheme.Assembler
