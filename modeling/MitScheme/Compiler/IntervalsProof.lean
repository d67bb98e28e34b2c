import MitScheme.Compiler.Intervals
import Mathlib.Tactic.Ring

/-!
# The algebra of segsets

A segset is a step function over the points, with the least value of a point for its key. The operators keep
segsets reduced, and do to the values what they say, wherever the points are; and a reduced interval is known
from its values. Only a multiplication by zero leaves segments that could be left out.
-/

namespace MitScheme.Intervals

open Assembler (Point)
open StepFunctions List

variable {point : Point} {coeff base : ℚ} {segset a b : List Segment} {s : Segment}
  {position : Point → ℚ} {op : ℚ → ℚ → ℚ} {alone : List Segment → List Segment}

/-! ## Segsets -/

/-- Points that are taken for one point by their least values are at one position. -/
def Agree (position : Point → ℚ) (a b : List Segment) : Prop :=
  ∀ s ∈ a, ∀ t ∈ b, s.1.min = t.1.min → position s.1 = position t.1

theorem Agree.tail_left (h : Agree position (s :: a) b) : Agree position a b :=
  fun x hx => h x (mem_cons_of_mem s hx)

theorem Agree.tail_right (h : Agree position a (s :: b)) : Agree position a b :=
  fun x hx y hy => h x hx y (mem_cons_of_mem s hy)

theorem mem_consSegset (h : s ∈ consSegset point coeff segset) : s.1 = point ∨ s ∈ segset := by
  unfold consSegset at h
  split at h
  · exact Or.inr h
  · rcases mem_cons.mp h with rfl | h
    · exact Or.inl rfl
    · exact Or.inr h

theorem reduced_consSegset (h : Reduced Point.min segset) (hlt : ∀ s ∈ segset, point.min < s.1.min) :
    Reduced Point.min (consSegset point coeff segset) := by
  unfold consSegset
  split
  · exact h
  · rename_i hne
    exact reduced_cons.mpr ⟨hlt, hne, h⟩

theorem total_consSegset (point : Point) (coeff base : ℚ) (segset : List Segment) :
    total position base (consSegset point coeff segset)
      = (position point - base) * coeff + total position (position point) segset := by
  unfold consSegset
  split
  · rename_i h
    cases segset with
    | nil =>
        rw [h, leading, total, total]
        ring
    | cons s segset =>
        -- the segment is joined to the one after it, which has its coefficient
        rw [h, leading, total, total]
        ring
  · rfl

theorem total_scale (b : List Segment) (c : ℚ) :
    ∀ base, total position base (segsetScale b c) = total position base b * c := by
  induction b with
  | nil =>
      intro base
      rw [segsetScale, map_nil, total, zero_mul]
  | cons s b ih =>
      intro base
      have h := ih (position s.1)
      unfold segsetScale at h ⊢
      rw [map_cons, total, total, h]
      ring

theorem leading_scale (b : List Segment) (c : ℚ) : leading (segsetScale b c) = leading b * c := by
  cases b with
  | nil => exact (zero_mul c).symm
  | cons s b => rfl

theorem scale_points (h : s ∈ segsetScale segset coeff) : ∃ t ∈ segset, t.1 = s.1 := by
  obtain ⟨t, ht, rfl⟩ := List.mem_map.mp h
  exact ⟨t, ht, rfl⟩

theorem reduced_scale (h : Reduced Point.min segset) (hc : coeff ≠ 0) :
    Reduced Point.min (segsetScale segset coeff) := by
  induction segset with
  | nil => exact h
  | cons s segset ih =>
      obtain ⟨hlt, hne, hrest⟩ := reduced_cons.mp h
      refine reduced_cons.mpr ⟨fun t ht => ?_, ?_, ih hrest⟩
      · obtain ⟨u, hu, hut⟩ := scale_points ht
        rw [← hut]
        exact hlt u hu
      · change s.2 * coeff ≠ leading (segsetScale segset coeff)
        rw [leading_scale]
        exact fun heq => hne (mul_right_cancel₀ hc heq)

theorem not_reduced_scale_zero (h : segset ≠ []) : ¬ Reduced Point.min (segsetScale segset 0) := by
  intro hreduced
  rw [segsetScale] at hreduced
  have hlast := List.getLast?_eq_some_getLast (l := segset) h
  refine hreduced.ending ((segset.getLast h).1, (segset.getLast h).2 * 0) ?_ (mul_zero _)
  rw [List.getLast?_map, hlast]
  rfl

/-! ## Merging -/

theorem merge_points (halone : ∀ {b}, ∀ s ∈ alone b, ∃ t ∈ b, t.1 = s.1) (a b : List Segment) :
    ∀ s ∈ segsetMerge op alone a b, ∃ t ∈ a ++ b, t.1 = s.1 := by
  fun_induction segsetMerge op alone a b with
  | case1 b => exact halone
  | case2 s a =>
      intro t ht
      exact ⟨t, mem_append_left _ ht, rfl⟩
  | case3 s a t b hlt ih =>
      intro u hu
      rcases mem_consSegset hu with heq | hu
      · exact ⟨s, mem_cons_self, heq.symm⟩
      · obtain ⟨v, hv, hvu⟩ := ih u hu
        exact ⟨v, mem_cons_of_mem s hv, hvu⟩
  | case4 s a t b _ heq ih =>
      intro u hu
      rcases mem_consSegset hu with h | hu
      · exact ⟨t, mem_append_right _ mem_cons_self, h.symm⟩
      · obtain ⟨v, hv, hvu⟩ := ih u hu
        rcases mem_append.mp hv with hv | hv
        · exact ⟨v, mem_append_left _ (mem_cons_of_mem s hv), hvu⟩
        · exact ⟨v, mem_append_right _ (mem_cons_of_mem t hv), hvu⟩
  | case5 s a t b _ _ ih =>
      intro u hu
      rcases mem_consSegset hu with h | hu
      · exact ⟨t, mem_append_right _ mem_cons_self, h.symm⟩
      · obtain ⟨v, hv, hvu⟩ := ih u hu
        rcases mem_append.mp hv with hv | hv
        · exact ⟨v, mem_append_left _ hv, hvu⟩
        · exact ⟨v, mem_append_right _ (mem_cons_of_mem t hv), hvu⟩

theorem reduced_merge (halone : ∀ {b}, ∀ s ∈ alone b, ∃ t ∈ b, t.1 = s.1)
    (hreduced : ∀ {b}, Reduced Point.min b → Reduced Point.min (alone b)) {a b : List Segment}
    (ha : Reduced Point.min a) (hb : Reduced Point.min b) :
    Reduced Point.min (segsetMerge op alone a b) := by
  -- the points of what is merged later are past a bound, as those of the two segsets are
  have hpast : ∀ {a b : List Segment} {m : Int}, (∀ t ∈ a, m < t.1.min) → (∀ t ∈ b, m < t.1.min) →
      ∀ s ∈ segsetMerge op alone a b, m < s.1.min := by
    intro a b m hma hmb s hs
    obtain ⟨t, ht, hts⟩ := merge_points halone a b s hs
    rw [← hts]
    rcases mem_append.mp ht with ht | ht
    · exact hma t ht
    · exact hmb t ht
  fun_induction segsetMerge op alone a b with
  | case1 b => exact hreduced hb
  | case2 s a => exact ha
  | case3 s a t b hlt ih =>
      obtain ⟨hsa, -, hra⟩ := reduced_cons.mp ha
      obtain ⟨htb, -, -⟩ := reduced_cons.mp hb
      refine reduced_consSegset (ih hra hb) (hpast hsa fun u hu => ?_)
      rcases mem_cons.mp hu with rfl | hu
      · exact hlt
      · exact hlt.trans (htb u hu)
  | case4 s a t b _ heq ih =>
      obtain ⟨hsa, -, hra⟩ := reduced_cons.mp ha
      obtain ⟨htb, -, hrb⟩ := reduced_cons.mp hb
      exact reduced_consSegset (ih hra hrb) (hpast (heq ▸ hsa) htb)
  | case5 s a t b hle hne ih =>
      obtain ⟨hsa, -, -⟩ := reduced_cons.mp ha
      obtain ⟨htb, -, hrb⟩ := reduced_cons.mp hb
      have hlt : t.1.min < s.1.min := by omega
      refine reduced_consSegset (ih ha hrb) (hpast (fun u hu => ?_) htb)
      rcases mem_cons.mp hu with rfl | hu
      · exact hlt
      · exact hlt.trans (hsa u hu)

theorem total_merge {c : ℚ} (hop : ∀ j k, op j k = j + c * k)
    (halone : ∀ b base, total position base (alone b) = c * total position base b) {a b : List Segment}
    (hagree : Agree position a b) : ∀ base, total position base (segsetMerge op alone a b)
      = total position base a + c * total position base b := by
  fun_induction segsetMerge op alone a b with
  | case1 b =>
      intro base
      rw [halone, total, zero_add]
  | case2 s a =>
      intro base
      rw [total, total, mul_zero, add_zero]
  | case3 s a t b hlt ih =>
      intro base
      rw [total_consSegset, hop, ih hagree.tail_left]
      simp only [total]
      ring
  | case4 s a t b _ heq ih =>
      -- the two points are taken for one
      intro base
      have hp : position s.1 = position t.1 := hagree s mem_cons_self t mem_cons_self heq
      rw [total_consSegset, hop, ih hagree.tail_left.tail_right]
      simp only [total, hp]
      ring
  | case5 s a t b _ _ ih =>
      intro base
      rw [total_consSegset, hop, ih hagree.tail_right]
      simp only [total]
      ring

theorem total_negate (b : List Segment) (base : ℚ) :
    total position base (segsetNegate b) = -total position base b := by
  rw [segsetNegate, total_scale]
  ring

theorem merge_nil_right (h : alone [] = []) (a : List Segment) : segsetMerge op alone a [] = a := by
  cases a with
  | nil => rw [segsetMerge, h]
  | cons s a => rw [segsetMerge]

/-! ## Intervals -/

/-- The offset; a number is its own. -/
def Interval.offset : Interval → ℚ
  | .number n => n
  | .interval offset _ => offset

def Interval.segments : Interval → List Segment
  | .number _ => []
  | .interval _ segset => segset

/-- The ending points of the segments. -/
def Interval.points (interval : Interval) : List Point := interval.segments.map Prod.fst

/-- No segment can be left out, and without a segment there is only a number. -/
structure Interval.Normal (interval : Interval) : Prop where
  reduced : Reduced Point.min interval.segments
  ne_nil : interval.isInterval = true → interval.segments ≠ []

/-- The least values of the points are ordered as the greatest ones are. -/
def OrderedAlike (points : List Point) : Prop :=
  ∀ p ∈ points, ∀ q ∈ points, (p.min < q.min ↔ p.max < q.max) ∧ (p.min = q.min ↔ p.max = q.max)

/-- Places of the points, in the order of the points. -/
structure Layout (position : Point → ℚ) : Prop where
  nonneg : ∀ p, 0 ≤ position p
  mono : ∀ p q, p.min ≤ q.min → position p ≤ position q

variable {x y r : Interval} {c : ℚ}

theorem at_eq (position : Point → ℚ) (x : Interval) :
    x.at position = x.offset + total position 0 x.segments := by
  cases x with
  | number n => exact (add_zero n).symm
  | interval offset segset => rfl

theorem mem_points {p : Point} : p ∈ x.points ↔ ∃ s ∈ x.segments, s.1 = p := List.mem_map

theorem OrderedAlike.subset {points points' : List Point} (h : OrderedAlike points)
    (hsub : ∀ p ∈ points', p ∈ points) : OrderedAlike points' :=
  fun p hp q hq => h p (hsub p hp) q (hsub q hq)

theorem OrderedAlike.eq_of_min {points : List Point} (h : OrderedAlike points) {p q : Point}
    (hp : p ∈ points) (hq : q ∈ points) (hmin : p.min = q.min) : p = q := by
  have hmax := (h p hp q hq).2.mp hmin
  cases p
  cases q
  cases hmin
  cases hmax
  rfl

theorem OrderedAlike.eq_of_segments (h : OrderedAlike (x.points ++ y.points)) {s t : Segment}
    (hs : s ∈ x.segments) (ht : t ∈ y.segments) (hmin : s.1.min = t.1.min) : s.1 = t.1 :=
  h.eq_of_min (mem_append_left _ (List.mem_map_of_mem hs))
    (mem_append_right _ (List.mem_map_of_mem ht)) hmin

theorem OrderedAlike.agree (h : OrderedAlike (x.points ++ y.points)) (position : Point → ℚ) :
    Agree position x.segments y.segments := by
  intro s hs t ht hmin
  rw [h.eq_of_segments hs ht hmin]

theorem offset_makeInterval (offset : ℚ) (segset : List Segment) :
    (makeInterval offset segset).offset = offset := by
  cases segset with
  | nil => rfl
  | cons s segset => rfl

theorem segments_makeInterval (offset : ℚ) (segset : List Segment) :
    (makeInterval offset segset).segments = segset := by
  cases segset with
  | nil => rfl
  | cons s segset => rfl

theorem at_makeInterval (position : Point → ℚ) (offset : ℚ) (segset : List Segment) :
    (makeInterval offset segset).at position = offset + total position 0 segset := by
  rw [at_eq, offset_makeInterval, segments_makeInterval]

theorem normal_makeInterval (offset : ℚ) : (makeInterval offset segset).Normal ↔ Reduced Point.min segset := by
  constructor
  · intro h
    rw [← segments_makeInterval offset segset]
    exact h.reduced
  · intro h
    refine ⟨by rwa [segments_makeInterval], fun hinterval => ?_⟩
    rw [segments_makeInterval]
    intro hnil
    subst hnil
    cases hinterval

theorem normal_number (n : ℚ) : (Interval.number n).Normal :=
  ⟨reduced_nil, fun h => by cases h⟩

theorem normal_label (point : Point) : (labelToMachineInterval point).Normal :=
  (normal_makeInterval 0).mpr (reduced_cons.mpr
    ⟨fun _ h => absurd h not_mem_nil, one_ne_zero, reduced_nil⟩)

/-- What an operator makes of two intervals: an interval over their points, with the values that the
operator has on theirs. -/
structure Computes (op : ℚ → ℚ → ℚ) (x y r : Interval) : Prop where
  points : ∀ p ∈ r.points, p ∈ x.points ++ y.points
  value : ∀ position, r.at position = op (x.at position) (y.at position)

theorem points_makeInterval {segset : List Segment} {offset : ℚ}
    (h : ∀ s ∈ segset, ∃ t ∈ x.segments ++ y.segments, t.1 = s.1) :
    ∀ p ∈ (makeInterval offset segset).points, p ∈ x.points ++ y.points := by
  intro p hp
  obtain ⟨s, hs, rfl⟩ := mem_points.mp hp
  rw [segments_makeInterval] at hs
  obtain ⟨t, ht, hts⟩ := h s hs
  rw [Interval.points, Interval.points, ← map_append]
  exact List.mem_map.mpr ⟨t, ht, hts⟩

theorem plus_eq (x y : Interval) :
    intervalPlus x y = makeInterval (x.offset + y.offset) (segsetPlus x.segments y.segments) := by
  unfold segsetPlus
  cases x with
  | number m =>
      rw [Interval.segments, segsetMerge]
      cases y with
      | number n => rfl
      | interval n segsetY => rfl
  | interval m segsetX =>
      cases y with
      | number n =>
          rw [Interval.segments, Interval.segments, merge_nil_right rfl]
          rfl
      | interval n segsetY => rfl

theorem minus_eq (x y : Interval) :
    intervalMinus x y = makeInterval (x.offset - y.offset) (segsetMinus x.segments y.segments) := by
  unfold segsetMinus
  cases x with
  | number m =>
      rw [Interval.segments, segsetMerge]
      cases y with
      | number n => rfl
      | interval n segsetY => rfl
  | interval m segsetX =>
      cases y with
      | number n =>
          rw [Interval.segments, Interval.segments, merge_nil_right rfl]
          rfl
      | interval n segsetY => rfl

theorem at_plus (h : Agree position x.segments y.segments) :
    (intervalPlus x y).at position = x.at position + y.at position := by
  rw [plus_eq, at_makeInterval, segsetPlus, at_eq, at_eq,
    total_merge (c := 1) (fun j k => by ring) (fun b base => by rw [id, one_mul]) h]
  ring

theorem at_minus (h : Agree position x.segments y.segments) :
    (intervalMinus x y).at position = x.at position - y.at position := by
  rw [minus_eq, at_makeInterval, segsetMinus, at_eq, at_eq,
    total_merge (c := -1) (fun j k => by ring) (fun b base => by rw [total_negate]; ring) h]
  ring

theorem points_plus : ∀ p ∈ (intervalPlus x y).points, p ∈ x.points ++ y.points := by
  rw [plus_eq]
  exact points_makeInterval (merge_points (fun s hs => ⟨s, hs, rfl⟩) _ _)

theorem points_minus : ∀ p ∈ (intervalMinus x y).points, p ∈ x.points ++ y.points := by
  rw [minus_eq]
  exact points_makeInterval (merge_points (fun s hs => scale_points hs) _ _)

theorem plus_computes (h : OrderedAlike (x.points ++ y.points)) : Computes (· + ·) x y (intervalPlus x y) :=
  ⟨points_plus, fun position => at_plus (h.agree position)⟩

theorem minus_computes (h : OrderedAlike (x.points ++ y.points)) : Computes (· - ·) x y (intervalMinus x y) :=
  ⟨points_minus, fun position => at_minus (h.agree position)⟩

theorem plus_normal (hx : x.Normal) (hy : y.Normal) : (intervalPlus x y).Normal := by
  rw [plus_eq]
  exact (normal_makeInterval _).mpr (reduced_merge (fun s hs => ⟨s, hs, rfl⟩) (fun h => h) hx.reduced hy.reduced)

theorem minus_normal (hx : x.Normal) (hy : y.Normal) : (intervalMinus x y).Normal := by
  rw [minus_eq]
  exact (normal_makeInterval _).mpr (reduced_merge (fun s hs => scale_points hs)
    (fun h => reduced_scale h (by norm_num)) hx.reduced hy.reduced)

/-! ## Products and quotients -/

variable {Name : Type}

/-- One factor is an interval, and the other one is zero. -/
def ZeroFactor (x y : Interval) : Prop :=
  x.isInterval = true ∧ y = .number 0 ∨ x = .number 0 ∧ y.isInterval = true

theorem times_returns (Name : Type) (x y : Interval) :
    (∃ r, @intervalTimes Name x y = .ok r) ↔ ¬ (x.isInterval = true ∧ y.isInterval = true) := by
  cases x with
  | number m =>
      refine ⟨fun _ h => (by cases h.1), fun _ => ?_⟩
      cases y with
      | number n => exact ⟨_, rfl⟩
      | interval n segsetY => exact ⟨_, rfl⟩
  | interval m segsetX =>
      cases y with
      | number n => exact ⟨fun _ h => (by cases h.2), fun _ => ⟨_, rfl⟩⟩
      | interval n segsetY =>
          refine ⟨?_, fun h => absurd ⟨rfl, rfl⟩ h⟩
          rintro ⟨r, hr⟩
          cases hr

/-- An interval, times a number. -/
def Interval.scaled (x : Interval) (c : ℚ) : Interval := makeInterval (x.offset * c) (segsetScale x.segments c)

theorem at_scaled (position : Point → ℚ) : (x.scaled c).at position = x.at position * c := by
  rw [Interval.scaled, at_makeInterval, total_scale, at_eq]
  ring

theorem points_scaled : ∀ p ∈ (x.scaled c).points, p ∈ x.points := by
  intro p hp
  have h := points_makeInterval (x := x) (y := .number 0) (fun s hs => by
    rw [Interval.segments, append_nil]
    exact scale_points hs) p hp
  rwa [Interval.points, Interval.points, Interval.segments, map_nil, append_nil] at h

theorem normal_scaled_iff (hx : x.Normal) : (x.scaled c).Normal ↔ (x.isInterval = true → c ≠ 0) := by
  rw [Interval.scaled, normal_makeInterval]
  constructor
  · intro h hinterval hc
    subst hc
    exact not_reduced_scale_zero (hx.ne_nil hinterval) h
  · intro h
    cases x with
    | number m => exact reduced_nil
    | interval m segsetX => exact reduced_scale hx.reduced (h rfl)

theorem times_eq_ok (h : @intervalTimes Name x y = .ok r) :
    (∃ c, y = .number c ∧ r = x.scaled c) ∨ ∃ c, x = .number c ∧ r = y.scaled c := by
  cases x with
  | number m =>
      cases y with
      | number n =>
          cases h
          exact Or.inl ⟨n, rfl, rfl⟩
      | interval n segsetY =>
          cases h
          exact Or.inr ⟨m, rfl, rfl⟩
  | interval m segsetX =>
      cases y with
      | number n =>
          cases h
          exact Or.inl ⟨n, rfl, rfl⟩
      | interval n segsetY => cases h

theorem times_computes (h : @intervalTimes Name x y = .ok r) : Computes (· * ·) x y r := by
  rcases times_eq_ok h with ⟨c, rfl, rfl⟩ | ⟨c, rfl, rfl⟩
  · exact ⟨fun p hp => mem_append_left _ (points_scaled p hp), at_scaled⟩
  · refine ⟨fun p hp => mem_append_right _ (points_scaled p hp), fun position => ?_⟩
    rw [at_scaled]
    exact mul_comm _ _

/-- **A product is normal** unless an interval is multiplied by zero. -/
theorem times_normal_iff (hx : x.Normal) (hy : y.Normal) (h : @intervalTimes Name x y = .ok r) :
    r.Normal ↔ ¬ ZeroFactor x y := by
  rcases times_eq_ok h with ⟨c, rfl, rfl⟩ | ⟨c, rfl, rfl⟩
  · rw [normal_scaled_iff hx]
    refine ⟨?_, fun hzero hinterval hc => hzero (Or.inl ⟨hinterval, hc ▸ rfl⟩)⟩
    rintro hne (⟨hinterval, hc⟩ | ⟨-, hinterval⟩)
    · cases hc
      exact hne hinterval rfl
    · cases hinterval
  · rw [normal_scaled_iff hy]
    refine ⟨?_, fun hzero hinterval hc => hzero (Or.inr ⟨hc ▸ rfl, hinterval⟩)⟩
    rintro hne (⟨hinterval, -⟩ | ⟨hc, hinterval⟩)
    · cases hinterval
    · cases hc
      exact hne hinterval rfl

theorem isInt_iff {q : ℚ} : q.isInt = true ↔ ∃ z : Int, q = z := by
  constructor
  · intro h
    exact ⟨q.num, (Rat.eq_num_of_isInt h)⟩
  · rintro ⟨z, rfl⟩
    rfl

theorem paranoidQuotient_eq_ok {n q : ℚ} :
    @paranoidQuotient Name n c = .ok q
      ↔ c ≠ 0 ∧ n.isInt = true ∧ c.isInt = true ∧ (n / c).isInt = true ∧ q = n / c := by
  unfold paranoidQuotient
  split
  · rename_i hn
    exact ⟨fun h => (by cases h), fun h => absurd h.2.1 hn⟩
  split
  · rename_i hc
    exact ⟨fun h => (by cases h), fun h => absurd h.2.2.1 hc⟩
  split
  · rename_i hzero
    exact ⟨fun h => (by cases h), fun h => absurd hzero h.1⟩
  rename_i hn hc hzero
  obtain ⟨k, rfl⟩ := isInt_iff.mp (not_not.mp hn)
  obtain ⟨d, rfl⟩ := isInt_iff.mp (not_not.mp hc)
  have hd : (d : ℚ) ≠ 0 := hzero
  rw [Rat.num_intCast, Rat.num_intCast]
  split
  · rename_i hmod
    refine ⟨fun h => (by cases h), fun h => absurd ?_ hmod⟩
    -- an exact quotient leaves no remainder
    obtain ⟨z, hz⟩ := isInt_iff.mp h.2.2.2.1
    rw [div_eq_iff hd] at hz
    have hkd : k = z * d := by exact_mod_cast hz
    rw [hkd, Int.mul_emod_left]
  · rename_i hmod
    have hdvd : d ∣ k := Int.dvd_of_emod_eq_zero (not_not.mp hmod)
    have hdiv : ((k / d : Int) : ℚ) = k / d := Int.cast_div hdvd hd
    constructor
    · intro h
      cases h
      exact ⟨hzero, rfl, rfl, hdiv ▸ rfl, hdiv⟩
    · rintro ⟨-, -, -, -, rfl⟩
      rw [hdiv]

/-- A division by this number comes out even: at the least and at the greatest values of the points, for an
interval. -/
def Exact (x : Interval) (c : ℚ) : Prop :=
  match x with
  | .number n => n.isInt = true ∧ c.isInt = true ∧ (n / c).isInt = true
  | .interval _ _ =>
      ((x.at fun p => p.min) / c).isInt = true ∧ ((x.at fun p => p.max) / c).isInt = true

theorem intervalValues_isInt (x : Interval) :
    ((intervalValues x).1.isInt = true ∧ (intervalValues x).2.isInt = true)
      ↔ (x.at fun p => p.min).isInt = true ∧ (x.at fun p => p.max).isInt = true := by
  unfold intervalValues
  dsimp only
  split
  · exact Iff.rfl
  · exact and_comm

theorem divide_eq_ok :
    (∃ r, @intervalDivide Name x y = .ok r) ↔ ∃ c, y = .number c ∧ c ≠ 0 ∧ Exact x c := by
  cases y with
  | interval n segsetY =>
      constructor
      · rintro ⟨r, hr⟩
        cases x with
        | number m => cases hr
        | interval m segsetX => cases hr
      · rintro ⟨c, hc, -⟩
        cases hc
  | number c =>
      cases x with
      | number m =>
          constructor
          · rintro ⟨r, hr⟩
            obtain ⟨q, hq, -⟩ := bind_eq_ok.mp hr
            obtain ⟨hc, hm, hci, hexact, -⟩ := paranoidQuotient_eq_ok.mp hq
            exact ⟨c, rfl, hc, hm, hci, hexact⟩
          · rintro ⟨c', hcc, hc, hm, hci, hexact⟩
            cases hcc
            exact ⟨.number (m / c), bind_eq_ok.mpr
              ⟨m / c, paranoidQuotient_eq_ok.mpr ⟨hc, hm, hci, hexact, rfl⟩, rfl⟩⟩
      | interval m segsetX =>
          unfold intervalDivide
          dsimp only
          split
          · rename_i hc
            refine ⟨fun ⟨r, hr⟩ => (by cases hr), ?_⟩
            rintro ⟨c', hcc, hc', -⟩
            cases hcc
            exact absurd hc hc'
          · rename_i hc
            have heq : makeInterval (m / c) (segsetScale segsetX (1 / c))
                = (Interval.interval m segsetX).scaled (1 / c) := congrArg (makeInterval · _) (div_eq_mul_one_div m c)
            split
            · rename_i hint
              rw [intervalValues_isInt, heq, at_scaled, at_scaled, mul_one_div, mul_one_div] at hint
              exact ⟨fun _ => ⟨c, rfl, hc, hint⟩, fun _ => ⟨_, rfl⟩⟩
            · rename_i hint
              rw [intervalValues_isInt, heq, at_scaled, at_scaled, mul_one_div, mul_one_div] at hint
              refine ⟨fun ⟨r, hr⟩ => (by cases hr), ?_⟩
              rintro ⟨c', hcc, -, hexact⟩
              cases hcc
              exact absurd hexact hint

theorem divide_eq (h : @intervalDivide Name x (.number c) = .ok r) : c ≠ 0 ∧ r = x.scaled (1 / c) := by
  cases x with
  | number m =>
      obtain ⟨q, hq, hr⟩ := bind_eq_ok.mp h
      obtain ⟨hc, -, -, -, rfl⟩ := paranoidQuotient_eq_ok.mp hq
      cases hr
      exact ⟨hc, congrArg Interval.number (div_eq_mul_one_div m c)⟩
  | interval m segsetX =>
      unfold intervalDivide at h
      dsimp only at h
      split at h
      · cases h
      · rename_i hc
        split at h
        · cases h
          exact ⟨hc, congrArg (makeInterval · _) (div_eq_mul_one_div m c)⟩
        · cases h

theorem divide_computes (h : @intervalDivide Name x y = .ok r) : Computes (· / ·) x y r := by
  obtain ⟨c, rfl, -⟩ := divide_eq_ok.mp ⟨r, h⟩
  obtain ⟨-, rfl⟩ := divide_eq h
  refine ⟨fun p hp => mem_append_left _ (points_scaled p hp), fun position => ?_⟩
  rw [at_scaled]
  exact mul_one_div _ _

theorem divide_normal (hx : x.Normal) (h : @intervalDivide Name x y = .ok r) : r.Normal := by
  obtain ⟨c, rfl, -⟩ := divide_eq_ok.mp ⟨r, h⟩
  obtain ⟨hc, rfl⟩ := divide_eq h
  exact (normal_scaled_iff hx).mpr fun _ => one_div_ne_zero hc

end MitScheme.Intervals
