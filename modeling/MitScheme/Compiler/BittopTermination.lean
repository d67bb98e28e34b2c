import MitScheme.Compiler.BittopProof

/-!
# Relaxation ends

In a widening pass every address is known, so that each field that is left is determined and the pass is the last
one, unless a selector is dropped. In a pass that is not a widening one a selector is dropped, or a widening pass
comes next.
-/

namespace MitScheme.Assembler

open List

/-- The least values of the points are the greatest ones. -/
def Sharp (segset : List Segment) : Prop := ∀ s ∈ segset, s.point.min = s.point.max

def Interval.Exact (interval : Interval) : Prop := Sharp interval.segments

variable {point : Point} {coeff : Int} {segset : List Segment}

theorem Sharp.cons (hpoint : point.min = point.max) (h : Sharp segset) : Sharp (⟨point, coeff⟩ :: segset) :=
  forall_mem_cons.mpr ⟨hpoint, h⟩

theorem exact_iff {x : Interval} : x.Exact ↔ ∀ p ∈ (Intervals.ofInterval x).points, p.min = p.max := by
  have hpoints : (Intervals.ofInterval x).points = x.segments.map Segment.point := by
    cases x with
    | number n => rfl
    | interval offset segset => exact List.map_map ..
  rw [hpoints, List.forall_mem_map]
  exact Iff.rfl

theorem Interval.Exact.plus {x y : Interval} (hx : x.Exact) (hy : y.Exact) : (x + y).Exact := by
  refine exact_iff.mpr fun p hp => ?_
  have hp : p ∈ (Intervals.ofInterval (intervalPlus x y)).points := hp
  rw [Intervals.ofInterval_plus] at hp
  rcases mem_append.mp (Intervals.points_plus p hp) with hp | hp
  · exact exact_iff.mp hx p hp
  · exact exact_iff.mp hy p hp

theorem Interval.Exact.minus {x y : Interval} (hx : x.Exact) (hy : y.Exact) : (x - y).Exact := by
  refine exact_iff.mpr fun p hp => ?_
  have hp : p ∈ (Intervals.ofInterval (intervalMinus x y)).points := hp
  rw [Intervals.ofInterval_minus] at hp
  rcases mem_append.mp (Intervals.points_minus p hp) with hp | hp
  · exact exact_iff.mp hx p hp
  · exact exact_iff.mp hy p hp

theorem sumSegments_sharp (h : Sharp segset) (base : Int) :
    sumSegments Point.min base segset = sumSegments Point.max base segset := by
  induction segset generalizing base with
  | nil => rfl
  | cons s segset ih =>
      obtain ⟨hs, htail⟩ := forall_mem_cons.mp h
      rw [sumSegments, sumSegments, hs, ih htail]

theorem Interval.Exact.values {interval : Interval} (h : interval.Exact) :
    (intervalValues interval).1 = (intervalValues interval).2 := by
  have hat : interval.at Point.min = interval.at Point.max := by
    cases interval with
    | number n => rfl
    | interval offset segset => exact congrArg (offset + ·) (sumSegments_sharp h 0)
  unfold intervalValues
  simp only [hat, le_refl, if_true]

/-! ## Known labels -/

variable {Name : Type} [DecidableEq Name] {t : Target} {q : Queues Name}

def ExactTable (table : SymbolTable Name Interval) : Prop :=
  ∀ key interval, table.lookup key = some interval → interval.Exact

/-- The interval of `*PC*` in a field. -/
def Directive.ExactPc : Directive Name → Prop
  | .variableWidthExpression _ pc _ => pc.Exact
  | _ => True

variable {table table' : SymbolTable Name Interval} {pc : Int} {directives directives' : List (Directive Name)}
  {widening : Bool} {count : Nat}

theorem ExactTable.define (h : ExactTable table) {name : Name} {interval : Interval} (hexact : interval.Exact)
    (hdefine : table.define name interval = .ok table') : ExactTable table' := by
  obtain ⟨-, rfl⟩ := define_eq_ok.mp hdefine
  intro key interval' hlookup
  rw [lookup_cons] at hlookup
  split at hlookup
  · cases hlookup
    exact hexact
  · exact h key interval' hlookup

theorem exact_label {interval : Interval}
    (h : (labelToMachineInterval t pc pc : Except (Failure Name) Interval) = .ok interval) : interval.Exact := by
  obtain ⟨-, -, rfl⟩ := labelToMachineInterval_eq_ok h
  exact Sharp.cons rfl (fun s hs => absurd hs not_mem_nil)

theorem ExactTable.setLabelValue (h : ExactTable table) {name : Name}
    (hset : Assembler.setLabelValue t table name pc pc = .ok table') : ExactTable table' := by
  obtain ⟨interval, hinterval, hdefine⟩ := bind_eq_ok.mp hset
  exact h.define (exact_label hinterval) hdefine

theorem ExactTable.evaluate (h : ExactTable table) {pcValue : Option Interval}
    (hpc : ∀ pc ∈ pcValue, pc.Exact) {expression : Expression Name} : ∀ {value : Interval},
    evaluate table pcValue expression = .ok value → value.Exact := by
  induction expression with
  | integer n =>
      intro value hvalue
      cases hvalue
      exact fun s hs => absurd hs not_mem_nil
  | pc =>
      intro value hvalue
      cases pcValue with
      | none => cases hvalue
      | some pc =>
          cases hvalue
          exact hpc _ rfl
  | symbol name =>
      intro value hvalue
      exact h name value (value_eq_ok.mp hvalue)
  | plus a b iha ihb =>
      intro value hvalue
      obtain ⟨x, hx, hvalue⟩ := bind_eq_ok.mp hvalue
      obtain ⟨y, hy, hvalue⟩ := bind_eq_ok.mp hvalue
      cases hvalue
      exact (iha hx).plus (ihb hy)
  | minus a b iha ihb =>
      intro value hvalue
      obtain ⟨x, hx, hvalue⟩ := bind_eq_ok.mp hvalue
      obtain ⟨y, hy, hvalue⟩ := bind_eq_ok.mp hvalue
      cases hvalue
      exact (iha hx).minus (ihb hy)

theorem ExactTable.defineObjects {objects : List Name} : ∀ {pc : Int} {table table' : SymbolTable Name Interval},
    ExactTable table → Assembler.defineObjects t objects pc pc table = .ok table' → ExactTable table' := by
  induction objects with
  | nil =>
      intro pc table table' h hdefine
      cases hdefine
      exact h
  | cons label objects ih =>
      intro pc table table' h hdefine
      obtain ⟨table₁, hset, hdefine⟩ := bind_eq_ok.mp hdefine
      exact ih (h.setLabelValue hset) hdefine

theorem ExactTable.defineEquates {equates : List (Name × Expression Name)} :
    ∀ {table table' : SymbolTable Name Interval}, ExactTable table →
      Assembler.defineEquates equates table = .ok table' → ExactTable table' := by
  induction equates with
  | nil =>
      intro table table' h hdefine
      cases hdefine
      exact h
  | cons equate equates ih =>
      intro table table' h hdefine
      obtain ⟨value, hvalue, hdefine⟩ := bind_eq_ok.mp hdefine
      obtain ⟨table₁, hset, hdefine⟩ := bind_eq_ok.mp hdefine
      exact ih (h.define (h.evaluate (fun _ hpc => by cases hpc) hvalue) hset) hdefine

theorem ExactTable.finish (h : ExactTable table) {endLabel : Name} {objects : List Name}
    {equates : List (Name × Expression Name)}
    (hfinish : finishSymbolTable t endLabel objects equates table = .ok table') : ExactTable table' := by
  obtain ⟨value, hvalue, hfinish⟩ := bind_eq_ok.mp hfinish
  obtain ⟨table₁, hobjects, hequates⟩ := bind_eq_ok.mp hfinish
  rw [(h endLabel value (value_eq_ok.mp hvalue)).values] at hobjects
  exact (h.defineObjects hobjects).defineEquates hequates

/-! ## Passes -/

/-- The selectors that are left. -/
def Directive.selectorCount : Directive Name → Nat
  | .variableWidthExpression _ _ selectors => selectors.length
  | _ => 0

def selectorCount (directives : List (Directive Name)) : Nat := (directives.map Directive.selectorCount).sum

theorem phase1_exact {endLabel : Name} (directives : List (Directive Name)) :
    ∀ {pcmin pcmax : Int} {pcStack : List Interval} {table table' : SymbolTable Name Interval}
      {directives' : List (Directive Name)},
      phase1 t endLabel widening directives pcmin pcmax pcStack table = .ok (directives', table') →
        selectorCount directives' = selectorCount directives
        ∧ (widening = true → pcmin = pcmax → (∀ pc ∈ pcStack, pc.Exact) → ExactTable table →
          ExactTable table' ∧ ∀ d ∈ directives', d.ExactPc) := by
  induction directives with
  | nil =>
      intro pcmin pcmax pcStack table table' directives' h
      obtain ⟨table₁, hset, h⟩ := bind_eq_ok.mp h
      cases h
      refine ⟨rfl, fun hwidening hpc _ htable => ⟨?_, fun d hd => absurd hd not_mem_nil⟩⟩
      rw [if_pos hwidening] at hset
      exact htable.setLabelValue hset
  | cons d directives ih =>
      intro pcmin pcmax pcStack table table' directives' h
      cases d with
      | label name =>
          obtain ⟨table₁, hset, h⟩ := bind_eq_ok.mp h
          obtain ⟨⟨rem, table₂⟩, hrem, h⟩ := bind_eq_ok.mp h
          cases h
          obtain ⟨hcount, hexact⟩ := ih hrem
          refine ⟨congrArg (0 + ·) hcount, fun hwidening hpc hstack htable => ?_⟩
          subst hpc
          obtain ⟨htable', hpcs⟩ := hexact hwidening rfl hstack (htable.setLabelValue hset)
          exact ⟨htable', forall_mem_cons.mpr ⟨trivial, hpcs⟩⟩
      | fixedWidthGroup l fixed =>
          obtain ⟨⟨rem, table₂⟩, hrem, h⟩ := bind_eq_ok.mp h
          cases h
          obtain ⟨hcount, hexact⟩ := ih hrem
          refine ⟨congrArg (0 + ·) hcount, fun hwidening hpc hstack htable => ?_⟩
          obtain ⟨htable', hpcs⟩ := hexact hwidening (by rw [hpc]) hstack htable
          exact ⟨htable', forall_mem_cons.mpr ⟨trivial, hpcs⟩⟩
      | variableWidthExpression expression pc selectors =>
          obtain ⟨pc', hpc', h⟩ := bind_eq_ok.mp h
          obtain ⟨⟨minl, maxl⟩, -, h⟩ := bind_eq_ok.mp h
          obtain ⟨⟨rem, table₂⟩, hrem, h⟩ := bind_eq_ok.mp h
          cases h
          obtain ⟨hcount, hexact⟩ := ih hrem
          refine ⟨congrArg (selectors.length + ·) hcount, fun hwidening hpc hstack htable => ?_⟩
          subst hpc
          obtain ⟨htable', hpcs⟩ := hexact hwidening (by rw [if_pos hwidening]) hstack htable
          refine ⟨htable', forall_mem_cons.mpr ⟨?_, hpcs⟩⟩
          cases pcStack with
          | nil => exact exact_label hpc'
          | cons pc'' pcStack =>
              cases hpc'
              exact hstack _ mem_cons_self
      | tick on =>
          obtain ⟨pcStack', htick, h⟩ := bind_eq_ok.mp h
          obtain ⟨⟨rem, table₂⟩, hrem, h⟩ := bind_eq_ok.mp h
          cases h
          obtain ⟨hcount, hexact⟩ := ih hrem
          refine ⟨congrArg (0 + ·) hcount, fun hwidening hpc hstack htable => ?_⟩
          subst hpc
          have hstack' : ∀ pc ∈ pcStack', pc.Exact := by
            cases on with
            | false =>
                cases htick
                exact fun pc hpc => hstack pc (mem_of_mem_tail hpc)
            | true =>
                obtain ⟨pc, hpc, htick⟩ := bind_eq_ok.mp htick
                cases htick
                exact forall_mem_cons.mpr ⟨exact_label hpc, hstack⟩
          obtain ⟨htable', hpcs⟩ := hexact hwidening rfl hstack' htable
          exact ⟨htable', forall_mem_cons.mpr ⟨trivial, hpcs⟩⟩
      | padding remdr divsr paddingString =>
          obtain ⟨pcmin', hmin, h⟩ := bind_eq_ok.mp h
          obtain ⟨pcmax', hmax, h⟩ := bind_eq_ok.mp h
          obtain ⟨⟨rem, table₂⟩, hrem, h⟩ := bind_eq_ok.mp h
          cases h
          obtain ⟨hcount, hexact⟩ := ih hrem
          refine ⟨congrArg (0 + ·) hcount, fun hwidening hpc hstack htable => ?_⟩
          rw [hpc, hmax] at hmin
          obtain ⟨htable', hpcs⟩ := hexact hwidening (Except.ok.inj hmin).symm hstack htable
          exact ⟨htable', forall_mem_cons.mpr ⟨trivial, hpcs⟩⟩

omit [DecidableEq Name] in
theorem processVariable_selectorCount {expression : Expression Name} {pc : Interval} {minval maxval : Int}
    {d : Directive Name} {determined filtered : Bool} (selectors : List Selector) : ∀ {droppedSome : Bool},
    processVariable expression pc widening minval maxval selectors droppedSome = .ok (d, determined, filtered) →
      d.selectorCount ≤ selectors.length ∧ (filtered = true → droppedSome = true ∨ d.selectorCount < selectors.length)
      ∧ (minval = maxval → determined = true) := by
  induction selectors with
  | nil =>
      intro droppedSome h
      cases h
  | cons sel selectors ih =>
      intro droppedSome h
      rw [processVariable] at h
      split at h
      · cases h
        refine ⟨?_, Or.inl, fun _ => rfl⟩
        cases widening with
        | false => exact Nat.zero_le _
        | true => exact le_refl _
      · next hout =>
          split at h
          · next hin =>
              cases h
              refine ⟨le_refl _, Or.inl, ?_⟩
              rintro rfl
              exact absurd hin hout
          · obtain ⟨hle, -, hdetermined⟩ := ih h
            rw [length_cons]
            exact ⟨by omega, fun _ => .inr (by omega), hdetermined⟩

theorem phase2_selectorCount (directives : List (Directive Name)) :
    ∀ {directives' : List (Directive Name)} {modified : Bool} {count : Nat},
      phase2 widening table directives = .ok (directives', modified, count) →
        selectorCount directives' ≤ selectorCount directives
        ∧ (modified = true → selectorCount directives' < selectorCount directives)
        ∧ (ExactTable table → (∀ d ∈ directives, d.ExactPc) → count = 0) := by
  induction directives with
  | nil =>
      intro directives' modified count h
      cases h
      exact ⟨le_refl _, nofun, fun _ _ => rfl⟩
  | cons d directives ih =>
      intro directives' modified count h
      cases d with
      | variableWidthExpression expression pc selectors =>
          obtain ⟨⟨rem, modified', count'⟩, hrem, h⟩ := bind_eq_ok.mp h
          obtain ⟨value, hvalue, h⟩ := bind_eq_ok.mp h
          obtain ⟨⟨d', determined, filtered⟩, hprocess, h⟩ := bind_eq_ok.mp h
          cases h
          obtain ⟨hle, hlt, hcount⟩ := ih hrem
          obtain ⟨hle', hlt', hdetermined⟩ := processVariable_selectorCount selectors hprocess
          refine ⟨Nat.add_le_add hle' hle, fun hmodified => ?_, fun htable hpcs => ?_⟩
          · rcases Bool.or_eq_true_iff.mp hmodified with hmodified | hfiltered
            · exact Nat.add_lt_add_of_le_of_lt hle' (hlt hmodified)
            · exact Nat.add_lt_add_of_lt_of_le ((hlt' hfiltered).resolve_left Bool.false_ne_true) hle
          · obtain ⟨hpc, hpcs⟩ := forall_mem_cons.mp hpcs
            have hexact := htable.evaluate (fun pc' hpc' => Option.some.inj hpc' ▸ hpc) hvalue
            rw [if_pos (hdetermined hexact.values)]
            exact hcount htable hpcs
      | label | fixedWidthGroup | tick | padding =>
          obtain ⟨⟨rem, modified', count'⟩, hrem, h⟩ := bind_eq_ok.mp h
          cases h
          obtain ⟨hle, hlt, hcount⟩ := ih hrem
          exact ⟨Nat.add_le_add_left hle _, fun hmodified => Nat.add_lt_add_left (hlt hmodified) _,
            fun htable hpcs => hcount htable (forall_mem_cons.mp hpcs).2⟩

/-! ## Turns -/

/-- All addresses are known in a widening pass. -/
def Pass.Exact (p : Pass Name) : Prop :=
  p.widening = true → ExactTable p.table ∧ ∀ d ∈ p.directives, d.ExactPc

/-- What gets smaller from turn to turn. -/
def Pass.rank (p : Pass Name) : Nat := 2 * selectorCount p.directives + if p.widening then 0 else 1

theorem continueRelaxing_spec {p : Pass Name}
    (h : continueRelaxing t q widening directives count = .ok (.continues p)) :
    p.widening = widening ∧ p.Exact ∧ selectorCount p.directives = selectorCount directives := by
  obtain ⟨⟨directives', table⟩, hphase, h⟩ := bind_eq_ok.mp h
  cases h
  obtain ⟨hcount, hexact⟩ := phase1_exact directives hphase
  refine ⟨rfl, fun hwidening => hexact hwidening rfl nofun ?_, hcount⟩
  intro key interval hlookup
  rw [initializeSymbolTable, lookup_cons] at hlookup
  split at hlookup
  · cases hlookup
    exact fun s hs => absurd hs not_mem_nil
  · cases hlookup

theorem turn_rank {p p' : Pass Name} (h : p.Exact) (hturn : turn t q p = .ok (.continues p')) :
    p'.Exact ∧ p'.rank < p.rank := by
  obtain ⟨table, hfinish, hturn⟩ := bind_eq_ok.mp hturn
  split at hturn
  · obtain ⟨⟨directives, modified, numberOfVars⟩, hphase, hturn⟩ := bind_eq_ok.mp hturn
    obtain ⟨hle, hlt, hcount⟩ := phase2_selectorCount p.directives hphase
    dsimp only at hturn
    split at hturn
    · next hmodified =>
        obtain ⟨hwidening, hexact, heq⟩ := continueRelaxing_spec hturn
        have := hlt hmodified
        refine ⟨hexact, ?_⟩
        rw [Pass.rank, Pass.rank, hwidening, if_neg Bool.false_ne_true]
        omega
    · split at hturn
      · cases hturn
      · next hvars =>
          -- a widening pass that drops nothing is the last one
          have hfalse : p.widening = false := by
            cases hp : p.widening with
            | false => rfl
            | true => exact absurd (hcount ((h hp).1.finish hfinish) (h hp).2) hvars
          obtain ⟨hwidening, hexact, heq⟩ := continueRelaxing_spec hturn
          refine ⟨hexact, ?_⟩
          rw [Pass.rank, Pass.rank, hwidening, hfalse]
          simp
          omega
  · cases hturn

theorem relax_ne_none {p : Pass Name} (h : p.Exact) : ∀ {fuel : Nat}, p.rank < fuel → relax t q fuel p ≠ .ok none := by
  intro fuel
  induction fuel generalizing p with
  | zero =>
      omega
  | succ fuel ih =>
      intro hrank
      rw [relax]
      cases hturn : turn t q p with
      | error e => nofun
      | ok result =>
          cases result with
          | finished directives table count => nofun
          | continues p' =>
              obtain ⟨hexact, hlt⟩ := turn_rank h hturn
              exact ih hexact (by omega)

end MitScheme.Assembler
