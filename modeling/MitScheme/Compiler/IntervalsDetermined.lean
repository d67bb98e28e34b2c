import MitScheme.Compiler.IntervalsProof

/-!
# Intervals are known from their values

Two normal intervals with the same values are the same interval. So what `evaluate` makes of an expression
depends only on the value of the expression as a function of where the labels are, as long as it multiplies no
interval by zero.
-/

namespace MitScheme.Intervals

open Assembler (Point)
open StepFunctions

variable {x y i i' : Interval}

theorem layout_split (k : Int) : Layout (split Point.min k) where
  nonneg := by
    intro p
    unfold split
    split
    · exact zero_le_one
    · exact le_refl 0
  mono := by
    intro p q hpq
    unfold split
    split
    · rename_i hp
      rw [if_pos (hp.trans hpq)]
    · split
      · exact zero_le_one
      · exact le_refl 0

theorem layout_zero : Layout fun _ => 0 := ⟨fun _ => le_refl 0, fun _ _ _ => le_refl 0⟩

/-- **A normal interval is known from its values**, at the layouts that put every point in one of two
places. -/
theorem eq_of_at_eq (hx : x.Normal) (hy : y.Normal) (hpoints : OrderedAlike (x.points ++ y.points))
    (h : ∀ position, Layout position → x.at position = y.at position) : x = y := by
  have hoffset : x.offset = y.offset := by
    have hzero := h _ layout_zero
    rwa [at_eq, at_eq, total_zero, total_zero, add_zero, add_zero] at hzero
  have hsegments : x.segments = y.segments := by
    refine hx.reduced.ext hy.reduced (fun s hs t ht => hpoints.eq_of_segments hs ht) fun k => ?_
    have hk := h _ (layout_split k)
    rw [at_eq, at_eq, hoffset, total_split hx.reduced.increasing, total_split hy.reduced.increasing] at hk
    exact add_left_cancel hk
  cases x with
  | number m =>
      cases y with
      | number n => exact congrArg Interval.number hoffset
      | interval n segsetY => exact absurd hsegments.symm (hy.ne_nil rfl)
  | interval m segsetX =>
      cases y with
      | number n => exact absurd hsegments (hx.ne_nil rfl)
      | interval n segsetY =>
          cases hoffset
          cases hsegments
          rfl

/-! ## Expressions -/

variable {Name : Type} [DecidableEq Name] {table : Assembler.SymbolTable Name Interval}
  {a b e e' : Expression Name}

/-- All points of the intervals of a symbol table. -/
def tablePoints (table : Assembler.SymbolTable Name Interval) : List Point :=
  table.flatMap fun entry => entry.2.points

/-- What the assembler has its symbol table hold: normal intervals over points in one order. -/
structure Orderly (table : Assembler.SymbolTable Name Interval) : Prop where
  normal : ∀ entry ∈ table, entry.2.Normal
  alike : OrderedAlike (tablePoints table)

/-- The value of an expression where the labels are as `position` says. -/
def Expression.value (table : Assembler.SymbolTable Name Interval) (position : Point → ℚ) :
    Expression Name → ℚ
  | .number n => n
  | .symbol name => ((table.lookup name).map (·.at position)).getD 0
  | .plus a b => a.value table position + b.value table position
  | .minus a b => a.value table position - b.value table position
  | .times a b => a.value table position * b.value table position
  | .divide a b => a.value table position / b.value table position

/-- No interval is multiplied by zero on the way. -/
def Expression.NoZeroFactor (table : Assembler.SymbolTable Name Interval) : Expression Name → Prop
  | .number _ | .symbol _ => True
  | .plus a b | .minus a b | .divide a b => a.NoZeroFactor table ∧ b.NoZeroFactor table
  | .times a b => a.NoZeroFactor table ∧ b.NoZeroFactor table
      ∧ ∀ x y, evaluate table a = .ok x → evaluate table b = .ok y → ¬ ZeroFactor x y

theorem mem_of_lookup {name : Name} {value : Interval} (h : table.lookup name = some value) :
    (name, value) ∈ table := by
  induction table with
  | nil => cases h
  | cons entry table ih =>
      rw [List.lookup_cons] at h
      split at h
      · rename_i heq
        cases h
        rw [eq_of_beq heq]
        exact List.mem_cons_self
      · exact List.mem_cons_of_mem _ (ih h)

/-- An interval over the points of the table, with the values of the expression. -/
structure Evaluates (table : Assembler.SymbolTable Name Interval) (e : Expression Name) (i : Interval) :
    Prop where
  points : ∀ p ∈ i.points, p ∈ tablePoints table
  value : ∀ position, i.at position = e.value table position

theorem Evaluates.append (hx : Evaluates table a x) (hy : Evaluates table b y) :
    ∀ p ∈ x.points ++ y.points, p ∈ tablePoints table := by
  intro p hp
  rcases List.mem_append.mp hp with hp | hp
  · exact hx.points p hp
  · exact hy.points p hp

theorem Evaluates.computes {op : ℚ → ℚ → ℚ} (hx : Evaluates table a x) (hy : Evaluates table b y)
    (h : Computes op x y i)
    (hop : ∀ position, e.value table position = op (a.value table position) (b.value table position)) :
    Evaluates table e i := by
  refine ⟨fun p hp => hx.append hy p (h.points p hp), fun position => ?_⟩
  rw [h.value, hx.value, hy.value, hop]

/-- **Evaluation has the value of the expression**, wherever the points are. -/
theorem evaluate_evaluates (htable : Orderly table) (h : evaluate table e = .ok i) : Evaluates table e i := by
  induction e generalizing i with
  | number n =>
      cases h
      exact ⟨fun p hp => absurd hp List.not_mem_nil, fun position => rfl⟩
  | symbol name =>
      unfold evaluate symbolTableValue at h
      split at h
      · rename_i value hlookup
        cases h
        refine ⟨fun p hp => List.mem_flatMap.mpr ⟨_, mem_of_lookup hlookup, hp⟩, fun position => ?_⟩
        rw [Expression.value, hlookup]
        rfl
      · cases h
  | plus a b iha ihb =>
      obtain ⟨x, ha, h⟩ := bind_eq_ok.mp h
      obtain ⟨y, hb, h⟩ := bind_eq_ok.mp h
      cases h
      have hx := iha ha
      have hy := ihb hb
      exact hx.computes hy (plus_computes (htable.alike.subset (hx.append hy))) fun position => rfl
  | minus a b iha ihb =>
      obtain ⟨x, ha, h⟩ := bind_eq_ok.mp h
      obtain ⟨y, hb, h⟩ := bind_eq_ok.mp h
      cases h
      have hx := iha ha
      have hy := ihb hb
      exact hx.computes hy (minus_computes (htable.alike.subset (hx.append hy))) fun position => rfl
  | times a b iha ihb =>
      obtain ⟨x, ha, h⟩ := bind_eq_ok.mp h
      obtain ⟨y, hb, h⟩ := bind_eq_ok.mp h
      exact (iha ha).computes (ihb hb) (times_computes h) fun position => rfl
  | divide a b iha ihb =>
      obtain ⟨x, ha, h⟩ := bind_eq_ok.mp h
      obtain ⟨y, hb, h⟩ := bind_eq_ok.mp h
      obtain ⟨c, rfl, hc, -⟩ := divide_eq_ok.mp ⟨i, h⟩
      exact (iha ha).computes (ihb hb) (divide_computes h) fun position => rfl

theorem evaluate_normal (htable : Orderly table) (h : evaluate table e = .ok i)
    (hzero : e.NoZeroFactor table) : i.Normal := by
  induction e generalizing i with
  | number n =>
      cases h
      exact normal_number n
  | symbol name =>
      unfold evaluate symbolTableValue at h
      split at h
      · rename_i value hlookup
        cases h
        exact htable.normal _ (mem_of_lookup hlookup)
      · cases h
  | plus a b iha ihb =>
      obtain ⟨x, ha, h⟩ := bind_eq_ok.mp h
      obtain ⟨y, hb, h⟩ := bind_eq_ok.mp h
      cases h
      exact plus_normal (iha ha hzero.1) (ihb hb hzero.2)
  | minus a b iha ihb =>
      obtain ⟨x, ha, h⟩ := bind_eq_ok.mp h
      obtain ⟨y, hb, h⟩ := bind_eq_ok.mp h
      cases h
      exact minus_normal (iha ha hzero.1) (ihb hb hzero.2)
  | times a b iha ihb =>
      obtain ⟨x, ha, h⟩ := bind_eq_ok.mp h
      obtain ⟨y, hb, h⟩ := bind_eq_ok.mp h
      exact (times_normal_iff (iha ha hzero.1) (ihb hb hzero.2.1) h).mpr (hzero.2.2 x y ha hb)
  | divide a b iha ihb =>
      obtain ⟨x, ha, h⟩ := bind_eq_ok.mp h
      obtain ⟨y, hb, h⟩ := bind_eq_ok.mp h
      exact divide_normal (iha ha hzero.1) h

/-- **The interval of an expression** depends only on its value as a function of where the labels are. -/
theorem evaluate_determined (htable : Orderly table) (h : evaluate table e = .ok i)
    (h' : evaluate table e' = .ok i') (hzero : e.NoZeroFactor table) (hzero' : e'.NoZeroFactor table)
    (hvalue : ∀ position, Layout position → e.value table position = e'.value table position) : i = i' := by
  have hi := evaluate_evaluates htable h
  have hi' := evaluate_evaluates htable h'
  refine eq_of_at_eq (evaluate_normal htable h hzero) (evaluate_normal htable h' hzero')
    (htable.alike.subset (hi.append hi')) fun position hlayout => ?_
  rw [hi.value, hi'.value, hvalue position hlayout]

/-! ## The algebra -/

/-- **The algebra of intervals.** Sums, differences and quotients of normal intervals are normal intervals with
the values that the operator says, wherever the points are; a product is one unless an interval is multiplied by
zero. A normal interval is known from its values, and so is the interval of an expression that multiplies no
interval by zero. -/
theorem interval_algebra (hx : x.Normal) (hy : y.Normal) (hpoints : OrderedAlike (x.points ++ y.points))
    (htable : Orderly table) :
    ((intervalPlus x y).Normal ∧ Computes (· + ·) x y (intervalPlus x y))
      ∧ ((intervalMinus x y).Normal ∧ Computes (· - ·) x y (intervalMinus x y))
      ∧ ((∃ r, @intervalTimes Name x y = .ok r) ↔ ¬ (x.isInterval = true ∧ y.isInterval = true))
      ∧ (∀ r, @intervalTimes Name x y = .ok r →
          Computes (· * ·) x y r ∧ (r.Normal ↔ ¬ ZeroFactor x y))
      ∧ ((∃ r, @intervalDivide Name x y = .ok r) ↔ ∃ c, y = .number c ∧ c ≠ 0 ∧ Exact x c)
      ∧ (∀ r, @intervalDivide Name x y = .ok r → Computes (· / ·) x y r ∧ r.Normal)
      ∧ ((∀ position, Layout position → x.at position = y.at position) → x = y)
      ∧ ∀ (e e' : Expression Name) (i i' : Interval),
          evaluate table e = .ok i → evaluate table e' = .ok i' →
          (∀ position, i.at position = e.value table position)
          ∧ (e.NoZeroFactor table → e'.NoZeroFactor table →
            (∀ position, Layout position → e.value table position = e'.value table position) → i = i') := by
  refine ⟨⟨plus_normal hx hy, plus_computes hpoints⟩, ⟨minus_normal hx hy, minus_computes hpoints⟩,
    times_returns Name x y, ?_, divide_eq_ok, ?_, eq_of_at_eq hx hy hpoints, ?_⟩
  · intro r hr
    exact ⟨times_computes hr, times_normal_iff hx hy hr⟩
  · intro r hr
    exact ⟨divide_computes hr, divide_normal hx hr⟩
  · intro e e' i i' h h'
    exact ⟨(evaluate_evaluates htable h).value, evaluate_determined htable h h'⟩

omit [DecidableEq Name] in
theorem orderly_label (name : Name) (point : Point) : Orderly [(name, labelToMachineInterval point)] where
  normal := by
    intro entry hentry
    rw [List.mem_singleton.mp hentry]
    exact normal_label point
  alike := by
    intro p hp q hq
    have hpoint : ∀ r ∈ tablePoints [(name, labelToMachineInterval point)], r = point := by
      intro r hr
      exact List.mem_singleton.mp hr
    rw [hpoint p hp, hpoint q hq]
    exact ⟨⟨fun h => absurd h (lt_irrefl _), fun h => absurd h (lt_irrefl _)⟩, fun _ => rfl, fun _ => rfl⟩

theorem interval_algebra_label :
    ∃ i, evaluate [("l", labelToMachineInterval ⟨4, 8⟩)] (.plus (.symbol "l") (.symbol "l")) = .ok i
      ∧ evaluate [("l", labelToMachineInterval ⟨4, 8⟩)] (.times (.symbol "l") (.number 2)) = .ok i := by
  obtain ⟨-, -, -, -, -, -, -, hexpressions⟩ := interval_algebra (normal_label ⟨4, 8⟩) (normal_number 2)
    (fun p hp q hq => (orderly_label "l" ⟨4, 8⟩).alike p
      (by simpa [tablePoints, Interval.points, Interval.segments] using hp) q
      (by simpa [tablePoints, Interval.points, Interval.segments] using hq))
    (orderly_label "l" ⟨4, 8⟩)
  obtain ⟨-, hequal⟩ := hexpressions (.plus (.symbol "l") (.symbol "l")) (.times (.symbol "l") (.number 2))
    _ _ rfl rfl
  refine ⟨_, rfl, ?_⟩
  rw [hequal ⟨trivial, trivial⟩ ⟨trivial, trivial, ?_⟩ ?_]
  · rfl
  · intro x y hx hy hzero
    cases hx
    cases hy
    rcases hzero with ⟨-, hy⟩ | ⟨hx, -⟩
    · cases hy
    · cases hx
  · intro position _
    simp only [Expression.value, List.lookup_cons_self, Option.map_some, Option.getD_some]
    ring

/-- A label times zero keeps its segment, with a coefficient of zero. Its values are those of the number
zero. -/
theorem times_zero_not_normal :
    @intervalTimes String (labelToMachineInterval ⟨4, 8⟩) (.number 0)
        = .ok (.interval 0 [(⟨4, 8⟩, 0)])
      ∧ ¬ (Interval.interval 0 [(⟨4, 8⟩, 0)]).Normal
      ∧ (∀ position, (Interval.interval 0 [(⟨4, 8⟩, 0)]).at position = (Interval.number 0).at position)
      ∧ Interval.interval 0 [(⟨4, 8⟩, 0)] ≠ .number 0 := by
  refine ⟨by simp [intervalTimes, labelToMachineInterval, makeInterval, segsetScale], ?_, ?_, ?_⟩
  · intro h
    exact h.reduced.ending _ rfl rfl
  · intro position
    simp [Interval.at, total]
  · intro h
    cases h

end MitScheme.Intervals
