import MitScheme.Compiler.BittopOutput

/-!
# Branch relaxation

What `relax!` finishes with can be assembled without a phase error, into a block of the length
that was predicted. The fields are encoded by selectors that reach as long as the intervals,
which the passes fix fields by, cover the layouts that are still open. The intervals do not
always do that. Points are told apart by their least values, so a field of no length between
two labels makes them one point, whatever else the field can become.
-/

namespace MitScheme.Assembler

open List

variable {Name : Type} [DecidableEq Name]

/-! ## What is expected of the output -/

/-- Every label of the directives is worth the address at which `assemble-directives!` comes to
it. -/
def LabelsPlaced (t : Target) (startLabel : Name) (directives : List (Directive Name))
    (values : SymbolTable Name Int) : Prop :=
  ∀ length i name o, directives[i]? = some (.label name) →
    (directives.take i).foldlM (assembleDirective t startLabel values)
      (startingOutput t startLabel length) = .ok o →
    values.lookup name = some (machineAddress t o.pc)

/-- The output block has the length that the end label says. -/
def LengthPredicted (t : Target) (startLabel endLabel : Name) (directives : List (Directive Name))
    (table : SymbolTable Name Interval) : Prop :=
  ∀ block, finalPhase t startLabel endLabel directives table = .ok block →
    ∃ address, (finalValues table).lookup endLabel = some address
      ∧ (block.length : Int) = toBitstringPc t address - startingPc t

/-- Every field that there was at first is in the block where it belongs, as one of its
selectors encodes it, and its value is in the range of that selector. -/
def FieldsInRange (t : Target) (startLabel endLabel : Name) (fields : List (Directive Name))
    (directives : List (Directive Name)) (table : SymbolTable Name Interval) : Prop :=
  ∀ block, finalPhase t startLabel endLabel directives table = .ok block →
    ∀ i e pc selectors, fields[i]? = some (.variableWidthExpression e pc selectors) →
      ∃ sel ∈ selectors, ∃ value,
        evaluate (finalValues table) (some ((placeAt t directives i).pcValue t)) e = .ok value
          ∧ sel.InRange value
          ∧ (block.drop ((placeAt t directives i).pc - startingPc t).toNat).take sel.length
            = variableHandlerWrapper sel.handler value

/-- For every list of instructions whose fields have their selectors in order: if `relax!`
finishes, the labels are at their addresses, there is no phase error and the block has the
predicted length. And every field is encoded in range, if in every pass, other than the last,
that fixes fields the intervals cover the layouts that are open. -/
theorem relaxation_sound {t : Target} {startLabel endLabel : Name}
    {input : List (Instruction Name)} {p : InitialPhase Name} {fuel count : Nat}
    {directives : List (Directive Name)} {table : SymbolTable Name Interval}
    (hordered : ∀ e selectors, .field e selectors ∈ itemsOf input → Ordered selectors)
    (hinitial : initialPhase t startLabel endLabel input = .ok p)
    (hrelax : relax t (p.queues startLabel endLabel) fuel p.firstPass
      = .ok (some (directives, table, count))) :
    p.directives.filterMap Directive.item? = itemsOf input
      ∧ (∀ (i : Nat) (name : Name), p.directives[i]? = some (.label name) →
        directives[i]? = some (.label name))
      ∧ LabelsPlaced t startLabel directives (finalValues table)
      ∧ finalPhase t startLabel endLabel directives table ≠ .error .phaseError
      ∧ LengthPredicted t startLabel endLabel directives table
      ∧ (CoversAll t (p.queues startLabel endLabel) p.firstPass →
        FieldsInRange t startLabel endLabel p.directives directives table) := by
  obtain ⟨hpassed, hwf, hitems⟩ := initialPhase_passed hordered hinitial
  have hright : Right t (p.queues startLabel endLabel) p.firstPass := ⟨hpassed, hwf⟩
  obtain ⟨hexact, hnarrows, hsettled⟩ := relax_spec hright hrelax
  have hwf' := narrows_wellFormed hnarrows hwf
  obtain ⟨hlabels, hend⟩ := exactTable_lookup hexact
  have hfinal := finalPhase_ends hwf' hexact
  refine ⟨hitems, fun i name hi => ?_, ?_, ?_, ?_, ?_⟩
  · obtain ⟨d, hd, hkept⟩ := forall₂_getElem? hnarrows hi
    cases hkept
    exact hd
  · intro length i name o hi ho
    -- the labels in front of this one are at their places too
    have hbefore : ∀ j name', (directives.take i)[j]? = some (.label name') →
        (finalValues table).lookup name' = some (machineAddress t
          (placeAfter t (startingPlace t) ((directives.take i).take j)).pc) := by
      intro j name' hj
      obtain ⟨hlt, -⟩ := List.getElem?_eq_some_iff.mp hj
      rw [length_take] at hlt
      rw [List.getElem?_take_of_lt (by omega)] at hj
      rw [take_take, min_eq_left (by omega)]
      exact hlabels j name' hj
    have hprefix := (assembleLoop_ends (follows_startingOutput startLabel length)
      (fun d hd => hwf' d (mem_of_mem_take hd)) hbefore).of_ok ho
    rw [hlabels i name hi, hprefix.1.pc]
    rfl
  · intro hphase
    exact hfinal.of_error hphase rfl
  · intro block hblock
    exact ⟨_, hend, (hfinal.of_ok hblock).1⟩
  · intro hcovers block hblock i e pc selectors hi
    obtain ⟨sel, hmem, d, hd, hencoded, hrange⟩ := hsettled hcovers i e pc selectors hi
    obtain ⟨value, hvalue, hbits⟩ := (hfinal.of_ok hblock).2 i d e sel hd hencoded
    refine ⟨sel, hmem, value, hvalue, hrange value ?_, hbits⟩
    rw [fieldValue_eq hexact]
    exact hvalue

/-! ## Two lists of instructions -/

/-- A selector that encodes the low bits of the value. -/
def lowBitsSelector (length : Nat) (low high : Option Int) : Selector where
  handler value := [lowBits length value.toNat]
  length := length
  low := low
  high := high
  handler_length value := by simp [variableHandlerWrapper, listToBitString, lowBits]

/-- A field for the distance between two labels, around a field that can have two lengths. -/
def distanceOver (short long high : Nat) : List (Instruction Nat) :=
  [.variableWidthExpression (.minus (.symbol 2) (.symbol 1))
      [lowBitsSelector 8 (some 0) (some high), lowBitsSelector 16 none none],
    .label 1,
    .variableWidthExpression (.integer 5)
      [lowBitsSelector (8 * short) (some 0) (some 0), lowBitsSelector (8 * long) none none],
    .label 2]

omit [DecidableEq Name] in
theorem Narrows.isField {e : Expression Name} {pc : Interval} {selectors : List Selector}
    {d : Directive Name} (h : Narrows (.variableWidthExpression e pc selectors) d) :
    ∃ sel ∈ selectors, d = variableWidthToFixed e sel
      ∨ ∃ pc' rest, d = .variableWidthExpression e pc' (sel :: rest) := by
  cases h with
  | same d hd => cases hd
  | @field _ _ pc' _ selectors' hne hsuffix =>
      cases selectors' with
      | nil => exact absurd rfl hne
      | cons sel rest =>
          exact ⟨sel, hsuffix.subset mem_cons_self, .inr ⟨pc', rest, rfl⟩⟩
  | fixed hmem => exact ⟨_, hmem, .inl rfl⟩

theorem Narrows.sameLayout {t : Target} {e : Expression Name} {pc : Interval}
    {selectors : List Selector} {d : Directive Name}
    (h : Narrows (.variableWidthExpression e pc selectors) d) :
    ∃ sel ∈ selectors, SameLayout t (variableWidthToFixed e sel) d := by
  obtain ⟨sel, hmem, rfl | ⟨pc', rest, rfl⟩⟩ := h.isField
  · exact ⟨sel, hmem, fun _ => rfl, fun _ _ => rfl⟩
  · exact ⟨sel, hmem, fun _ => rfl, fun _ _ => rfl⟩

theorem ordered_distanceOver {short long high : Nat} (h : short ≤ long) (e : Expression Nat)
    (selectors : List Selector) (hmem : .field e selectors ∈ itemsOf (distanceOver short long high)) :
    Ordered selectors := by
  simp only [distanceOver, itemsOf, Instruction.items, singleton_append, mem_cons,
    Item.field.injEq, reduceCtorEq, false_or, not_mem_nil, or_false] at hmem
  rcases hmem with ⟨-, rfl⟩ | ⟨-, rfl⟩
  · simp [Ordered, lowBitsSelector]
  · simpa [Ordered, lowBitsSelector] using h

theorem distance_layouts {t : Target} {e e' : Expression Nat} {pc pc' : Interval}
    {selectors selectors' : List Selector} {open' : List (Directive Nat)}
    (h : List.Forall₂ Narrows [.variableWidthExpression e pc selectors, .label 1,
      .variableWidthExpression e' pc' selectors', .label 2] open') :
    ∃ sel ∈ selectors, ∃ sel' ∈ selectors', List.Forall₂ (SameLayout t)
      [variableWidthToFixed e sel, .label 1, variableWidthToFixed e' sel', .label 2] open' := by
  rcases h with _ | ⟨h₀, _ | ⟨h₁, _ | ⟨h₂, _ | ⟨h₃, h⟩⟩⟩⟩
  cases h
  cases h₁
  cases h₃
  obtain ⟨sel, hmem, hsame⟩ := h₀.sameLayout (t := t)
  obtain ⟨sel', hmem', hsame'⟩ := h₂.sameLayout (t := t)
  have hlabel : ∀ name, SameLayout t (.label name : Directive Nat) (.label name) :=
    fun name => ⟨fun _ => rfl, fun _ _ => rfl⟩
  exact ⟨sel, hmem, sel', hmem',
    .cons hsame (.cons (hlabel 1) (.cons hsame' (.cons (hlabel 2) .nil)))⟩

theorem coversAll_distance :
    ∃ p directives table, initialPhase i386 0 3 (distanceOver 1 2 2) = .ok p
      ∧ relax i386 (p.queues 0 3) 2 p.firstPass = .ok (some (directives, table, 1))
      ∧ CoversAll i386 (p.queues 0 3) p.firstPass := by
  refine ⟨_, _, _, rfl, rfl, ?_⟩
  intro p p' hreach hcontinues hwidening
  rcases hreach.cases_head with rfl | ⟨p₁, hfirst, hreach⟩
  · -- the first pass
    intro table htable i e pc selectors interval hi heval d filtered hprocess open' hopen value
      hvalue
    obtain ⟨sel, hmem, sel', hmem', hsame⟩ := distance_layouts hopen
    rw [fieldValue_sameLayout hsame] at hvalue
    cases htable
    match i, hi with
    | 0, hi =>
        -- the distance is the length of the field between the labels
        cases hi
        cases heval
        simp only [mem_cons, not_mem_nil, or_false] at hmem hmem'
        rcases hmem with rfl | rfl <;> rcases hmem' with rfl | rfl <;> cases hvalue <;> decide
    | 1, hi | 3, hi | n + 4, hi => cases hi
    | 2, hi =>
        cases hi
        cases heval
        simp only [mem_cons, not_mem_nil, or_false] at hmem hmem'
        rcases hmem with rfl | rfl <;> rcases hmem' with rfl | rfl <;> cases hvalue <;> decide
  · -- there are no fields left in the second pass
    cases hfirst
    rcases hreach.cases_head with rfl | ⟨p₂, hsecond, -⟩
    · cases hcontinues
    · cases hsecond

theorem relaxation_sound_distance :
    ∃ p directives table, initialPhase i386 0 3 (distanceOver 1 2 2) = .ok p
      ∧ relax i386 (p.queues 0 3) 2 p.firstPass = .ok (some (directives, table, 1))
      ∧ FieldsInRange i386 0 3 p.directives directives table := by
  obtain ⟨p, directives, table, hinitial, hrelax, hcovers⟩ := coversAll_distance
  have hsound := relaxation_sound (ordered_distanceOver (by decide)) hinitial hrelax
  exact ⟨p, directives, table, hinitial, hrelax, hsound.2.2.2.2.2 hcovers⟩

/-- With a field of no length between the labels the distance is taken to be zero, and the field
for it is fixed at once. In the end the labels are one address apart. -/
theorem distance_out_of_range :
    ¬∀ (t : Target) (startLabel endLabel : Nat) (input : List (Instruction Nat))
      (p : InitialPhase Nat) (fuel count : Nat) (directives : List (Directive Nat))
      (table : SymbolTable Nat Interval),
      (∀ e selectors, .field e selectors ∈ itemsOf input → Ordered selectors) →
      initialPhase t startLabel endLabel input = .ok p →
      relax t (p.queues startLabel endLabel) fuel p.firstPass
        = .ok (some (directives, table, count)) →
      FieldsInRange t startLabel endLabel p.directives directives table := by
  intro hclaim
  obtain ⟨sel, hmem, value, hvalue, hrange, hbits⟩ := hclaim i386 0 3 (distanceOver 0 1 0) _ 2 _ _ _
    (ordered_distanceOver (by decide)) rfl rfl _ rfl 0 _ _ _ rfl
  cases hvalue
  rcases mem_cons.mp hmem with rfl | hmem
  · -- the short selector is for zero only
    exact absurd (hrange.2 0 rfl) (by decide)
  · -- the long selector is not what is in the block
    rw [mem_singleton.mp hmem] at hbits
    revert hbits
    decide

end MitScheme.Assembler
