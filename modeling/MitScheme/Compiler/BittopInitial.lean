import MitScheme.Compiler.BittopProof

/-!
# The directives that the assembler starts with

`initial-phase` takes the fields and the labels of the instructions over in their order, opens
the groups, and leaves the addresses of the layout in the table just as `phase-1` does.
-/

namespace MitScheme.Assembler

open List

variable {Name : Type}

/-- What of the input the output is about. -/
inductive Item (Name : Type) where
  | label (name : Name)
  | field (expression : Expression Name) (selectors : List Selector)

def Directive.item? : Directive Name → Option (Item Name)
  | .label name => some (.label name)
  | .variableWidthExpression expression _ selectors => some (.field expression selectors)
  | _ => none

mutual

/-- The labels and the fields of an instruction. -/
def Instruction.items : Instruction Name → List (Item Name)
  | .label name => [.label name]
  | .variableWidthExpression expression selectors => [.field expression selectors]
  | .group body => itemsOf body
  | _ => []

def itemsOf : List (Instruction Name) → List (Item Name)
  | [] => []
  | instruction :: instructions => instruction.items ++ itemsOf instructions

end

variable [DecidableEq Name] {t : Target}

theorem defineLabels_append {a b : List (Directive Name)} :
    ∀ {p : Place} {values : SymbolTable Name Int}, defineLabels t p values (a ++ b)
      = defineLabels t p values a >>= fun values => defineLabels t (placeAfter t p a) values b := by
  induction a with
  | nil =>
      intro p values
      rfl
  | cons d a ih =>
      intro p values
      rw [cons_append, defineLabels, defineLabels]
      cases d.defineLabel t p values with
      | error e => rfl
      | ok values => exact ih

omit [DecidableEq Name] in
theorem placeAfter_append (p : Place) (a b : List (Directive Name)) :
    placeAfter t p (a ++ b) = placeAfter t (placeAfter t p a) b := foldl_append

omit [DecidableEq Name] in
theorem PcsRight.append {p : Place} {directives : List (Directive Name)} {d : Directive Name}
    (h : PcsRight t p directives)
    (hpc : ∀ e pc selectors, d = .variableWidthExpression e pc selectors →
      intervalFinalValue pc = (placeAfter t p directives).pcValue t) :
    PcsRight t p (directives ++ [d]) := by
  intro i e pc selectors hi
  rcases lt_trichotomy i directives.length with hlt | rfl | hgt
  · rw [List.getElem?_append_left hlt] at hi
    rw [take_append_of_le_length (le_of_lt hlt)]
    exact h i e pc selectors hi
  · rw [List.getElem?_append_right (le_refl _), Nat.sub_self] at hi
    rw [take_append_of_le_length (le_refl _), take_length]
    exact hpc e pc selectors (Option.some.inj hi)
  · rw [List.getElem?_eq_none (by rw [length_append, length_singleton]; omega)] at hi
    cases hi

/-! ## The state of the loop -/

namespace InitialPhase

/-- The width of what is in the group that is being collected. -/
def groupWidth (p : InitialPhase Name) : Int :=
  match p.group with
  | none => 0
  | some (width, _) => width

/-- The place the loop has come to. -/
def place (p : InitialPhase Name) : Place := ⟨p.pcmin, p.pcStack.map intervalFinalValue⟩

/-- What holds whenever the loop of `initial-phase` turns. -/
structure Right (t : Target) (startLabel : Name) (p : InitialPhase Name) : Prop where
  labels : defineLabels t (startingPlace t) [(startLabel, 0)] p.directives
    = .ok (finalValues p.table)
  place : placeAfter t (startingPlace t) p.directives
    = ⟨p.pcmin - p.groupWidth, p.pcStack.map intervalFinalValue⟩
  pcs : PcsRight t (startingPlace t) p.directives
  wellFormed : ∀ d ∈ p.directives, d.WellFormed t
  group : ∀ width fixed, p.group = some (width, fixed) → (fixed.map (Fixed.width t)).sum = width
  nonneg : 0 ≤ p.pcmin
  ordered : p.pcmin ≤ p.pcmax

variable {startLabel : Name} {p p' : InitialPhase Name}

theorem Right.append (h : p.Right t startLabel) {d : Directive Name}
    (hdirectives : p'.directives = p.directives ++ [d])
    (hplace : (⟨p'.pcmin - p'.groupWidth, p'.pcStack.map intervalFinalValue⟩ : Place)
      = d.advance t ⟨p.pcmin - p.groupWidth, p.pcStack.map intervalFinalValue⟩)
    (hlabel : d.defineLabel t ⟨p.pcmin - p.groupWidth, p.pcStack.map intervalFinalValue⟩
      (finalValues p.table) = .ok (finalValues p'.table))
    (hpc : ∀ e pc selectors, d = .variableWidthExpression e pc selectors →
      intervalFinalValue pc
        = Place.pcValue t ⟨p.pcmin - p.groupWidth, p.pcStack.map intervalFinalValue⟩)
    (hd : d.WellFormed t)
    (hgroup : ∀ width fixed, p'.group = some (width, fixed) →
      (fixed.map (Fixed.width t)).sum = width)
    (hnonneg : 0 ≤ p'.pcmin) (hordered : p'.pcmin ≤ p'.pcmax) : p'.Right t startLabel where
  labels := by
    rw [hdirectives, defineLabels_append]
    refine bind_eq_ok.mpr ⟨_, h.labels, ?_⟩
    rw [h.place]
    exact bind_eq_ok.mpr ⟨_, hlabel, rfl⟩
  place := by
    rw [hdirectives, placeAfter_append, h.place, hplace]
    rfl
  pcs := by
    rw [hdirectives]
    refine h.pcs.append fun e pc selectors heq => ?_
    rw [h.place]
    exact hpc e pc selectors heq
  wellFormed := by
    rw [hdirectives]
    intro d' hd'
    rcases mem_append.mp hd' with hd' | hd'
    · exact h.wellFormed d' hd'
    · rw [mem_singleton.mp hd']
      exact hd
  group := hgroup
  nonneg := hnonneg
  ordered := hordered

theorem collectGroup_fields (p : InitialPhase Name) :
    p.collectGroup.group = none ∧ p.collectGroup.pcmin = p.pcmin
      ∧ p.collectGroup.pcmax = p.pcmax ∧ p.collectGroup.pcStack = p.pcStack
      ∧ p.collectGroup.table = p.table ∧ p.collectGroup.equates = p.equates
      ∧ p.collectGroup.objects = p.objects := by
  unfold collectGroup
  split
  · rename_i h
    exact ⟨h, rfl, rfl, rfl, rfl, rfl, rfl⟩
  · exact ⟨rfl, rfl, rfl, rfl, rfl, rfl, rfl⟩

theorem Right.collectGroup (h : p.Right t startLabel) : p.collectGroup.Right t startLabel := by
  unfold InitialPhase.collectGroup
  split
  · exact h
  · rename_i width fixed hgroup
    refine h.append (d := .fixedWidthGroup width fixed.reverse) rfl ?_ rfl (by simp) ?_ (by simp)
      h.nonneg h.ordered
    · simp [groupWidth, hgroup, Directive.advance]
    · have := h.group width fixed hgroup
      simpa [Directive.WellFormed] using this

theorem Right.newDirective (h : p.Right t startLabel) {d : Directive Name}
    (hdirectives : p'.directives = (p.newDirective d).directives) (hgroup : p'.group = none)
    (hplace : p'.place = d.advance t p.place)
    (hlabel : d.defineLabel t p.place (finalValues p.table) = .ok (finalValues p'.table))
    (hpc : ∀ e pc selectors, d = .variableWidthExpression e pc selectors →
      intervalFinalValue pc = p.place.pcValue t)
    (hd : d.WellFormed t) (hnonneg : 0 ≤ p'.pcmin) (hordered : p'.pcmin ≤ p'.pcmax) :
    p'.Right t startLabel := by
  obtain ⟨hnone, hpcmin, hpcmax, hstack, htable, -, -⟩ := collectGroup_fields p
  have hat : (⟨p.collectGroup.pcmin - p.collectGroup.groupWidth,
      p.collectGroup.pcStack.map intervalFinalValue⟩ : Place) = p.place := by
    simp [groupWidth, hnone, hpcmin, hstack, InitialPhase.place]
  refine h.collectGroup.append (d := d) hdirectives ?_ ?_ ?_ hd ?_ hnonneg hordered
  · rw [hat, ← hplace]
    simp [groupWidth, hgroup, InitialPhase.place]
  · rw [hat, htable]
    exact hlabel
  · rw [hat]
    exact hpc
  · simp [hgroup]

/-- The items among the directives. -/
def items (p : InitialPhase Name) : List (Item Name) := p.directives.filterMap Directive.item?

theorem items_collectGroup (p : InitialPhase Name) : p.collectGroup.items = p.items := by
  unfold collectGroup items
  split
  · rfl
  · simp [Directive.item?]

theorem items_newDirective {d : Directive Name}
    (h : p'.directives = (p.newDirective d).directives) :
    p'.items = p.items ++ d.item?.toList := by
  rw [← items_collectGroup p]
  unfold items
  rw [h]
  unfold newDirective
  cases hitem : d.item? <;> simp [hitem]

/-- Some instructions have been taken over. -/
structure Takes (t : Target) (startLabel : Name) (p p' : InitialPhase Name)
    (items : List (Item Name)) : Prop where
  right : p'.Right t startLabel
  items : p'.items = p.items ++ items

theorem Right.processFixedWidth (h : p.Right t startLabel) {fixed : Fixed Name} {width : Nat}
    (hwidth : fixed.width t = width) :
    Takes t startLabel p (p.processFixedWidth fixed width) [] where
  right :=
    { labels := h.labels
      place := by
        rw [show (p.processFixedWidth fixed width).directives = p.directives from rfl, h.place]
        unfold InitialPhase.processFixedWidth groupWidth
        cases p.group <;> simp <;> ring
      pcs := h.pcs
      wellFormed := h.wellFormed
      group := by
        intro w ds hgroup
        cases hp : p.group with
        | none =>
            simp only [InitialPhase.processFixedWidth, hp, Option.some.injEq, Prod.mk.injEq]
              at hgroup
            obtain ⟨rfl, rfl⟩ := hgroup
            simp [hwidth]
        | some group =>
            obtain ⟨w', ds'⟩ := group
            simp only [InitialPhase.processFixedWidth, hp, Option.some.injEq, Prod.mk.injEq]
              at hgroup
            obtain ⟨rfl, rfl⟩ := hgroup
            rw [map_cons, sum_cons, hwidth, h.group w' ds' hp]
      nonneg := by
        have := h.nonneg
        simp only [InitialPhase.processFixedWidth]
        omega
      ordered := by
        have := h.ordered
        simp only [InitialPhase.processFixedWidth]
        omega }
  items := by simp [InitialPhase.items, InitialPhase.processFixedWidth]

theorem Right.processLabel (h : p.Right t startLabel) {name : Name}
    (hp : p.processLabel t name = .ok p') : Takes t startLabel p p' [.label name] := by
  obtain ⟨table, htable, hp⟩ := bind_eq_ok.mp hp
  cases hp
  refine ⟨h.newDirective (d := .label name) rfl ?_ ?_ (setLabelValue_finalValues htable) (by simp)
    trivial ?_ ?_, items_newDirective (d := .label name) rfl⟩
  all_goals obtain ⟨hnone, hpcmin, hpcmax, hstack, -⟩ := collectGroup_fields p
  · exact hnone
  · simp [InitialPhase.place, InitialPhase.newDirective, hpcmin, hstack, Directive.advance]
  · simp only [InitialPhase.newDirective, hpcmin]
    exact h.nonneg
  · simp only [InitialPhase.newDirective, hpcmin, hpcmax]
    exact h.ordered

theorem Right.processVariableWidth (h : p.Right t startLabel) {e : Expression Name}
    {selectors : List Selector} (hordered : Ordered selectors)
    (hp : p.processVariableWidth t e selectors = .ok p') :
    Takes t startLabel p p' [.field e selectors] := by
  obtain ⟨pc, hpc, hp⟩ := bind_eq_ok.mp hp
  obtain ⟨⟨minl, maxl⟩, hlengths, hp⟩ := bind_eq_ok.mp hp
  cases hp
  obtain ⟨hne, hminl, hle, -⟩ := variableWidthLengths_eq_ok hlengths hordered
  have hnonneg := h.nonneg
  have hrange := h.ordered
  obtain ⟨hnone, hpcmin, hpcmax, hstack, htable, -⟩ := collectGroup_fields p
  refine ⟨h.newDirective (d := .variableWidthExpression e pc selectors) rfl hnone ?_ ?_ ?_
    ⟨hne, hordered⟩ ?_ ?_, items_newDirective (d := .variableWidthExpression e pc selectors) rfl⟩
  · simp [InitialPhase.place, InitialPhase.newDirective, hstack, Directive.advance, hminl]
  · simp [Directive.defineLabel, InitialPhase.newDirective, htable]
  · intro e' pc' selectors' heq
    cases heq
    exact pcInterval_eq_ok hpc
  · dsimp only
    omega
  · dsimp only
    omega

theorem Right.tickOn (h : p.Right t startLabel) (hp : p.tickOn t = .ok p') :
    Takes t startLabel p p' [] := by
  obtain ⟨pc, hpc, hp⟩ := bind_eq_ok.mp hp
  cases hp
  obtain ⟨-, -, rfl⟩ := labelToMachineInterval_eq_ok hpc
  have hnonneg := h.nonneg
  have hrange := h.ordered
  obtain ⟨hnone, hpcmin, hpcmax, hstack, htable, -⟩ := collectGroup_fields p
  refine ⟨h.newDirective (d := .tick true) rfl hnone ?_ ?_ (by simp) trivial ?_ ?_,
    items_newDirective (d := .tick true) rfl⟩
  · simp [InitialPhase.place, InitialPhase.newDirective, hpcmin, Directive.advance,
      intervalFinalValue, at_machineInterval]
  · simp [Directive.defineLabel, InitialPhase.newDirective, htable]
  · simp only [InitialPhase.newDirective]
    omega
  · simp only [InitialPhase.newDirective]
    omega

theorem Right.tickOff (h : p.Right t startLabel) : Takes t startLabel p p.tickOff [] := by
  have hnonneg := h.nonneg
  have hrange := h.ordered
  obtain ⟨hnone, hpcmin, hpcmax, hstack, htable, -⟩ := collectGroup_fields p
  refine ⟨h.newDirective (d := .tick false) rfl hnone ?_ ?_ (by simp) trivial ?_ ?_,
    items_newDirective (d := .tick false) rfl⟩
  · simp [InitialPhase.tickOff, InitialPhase.place, InitialPhase.newDirective, hpcmin,
      Directive.advance, map_tail]
  · simp [Directive.defineLabel, InitialPhase.tickOff, InitialPhase.newDirective, htable]
  · simp only [InitialPhase.tickOff, InitialPhase.newDirective]
    omega
  · simp only [InitialPhase.tickOff, InitialPhase.newDirective]
    omega

theorem Right.processPadding (h : p.Right t startLabel) {remdr : Int} {divsr : Nat}
    {paddingString : Option Bits} (hp : p.processPadding t remdr divsr paddingString = .ok p') :
    Takes t startLabel p p' [] := by
  obtain ⟨directive, hdirective, hp⟩ := bind_eq_ok.mp hp
  obtain ⟨pcmin, hmin, hp⟩ := bind_eq_ok.mp hp
  obtain ⟨pcmax, hmax, hp⟩ := bind_eq_ok.mp hp
  cases hp
  obtain ⟨-, rfl⟩ := afterPadding_eq_ok hmin
  obtain ⟨-, rfl⟩ := afterPadding_eq_ok hmax
  unfold toPaddingDirective at hdirective
  split at hdirective
  · cases hdirective
  · cases hdirective
    have hdivsr : (0 : Int) < divsr := by omega
    have hremdr := Int.emod_nonneg remdr (ne_of_gt hdivsr)
    have hlt := Int.emod_lt_of_pos remdr hdivsr
    obtain ⟨hnonneg, hrange⟩ := afterPadding_mono (t := t) h.nonneg h.ordered hremdr hlt
    obtain ⟨hnone, hpcmin, hpcmax, hstack, htable, -⟩ := collectGroup_fields p
    refine ⟨h.newDirective
      (d := .padding (remdr % divsr) divsr (paddingString.getD t.paddingString)) rfl hnone ?_ ?_
      (by simp) ⟨hremdr, hlt⟩ hnonneg hrange,
      items_newDirective
        (d := .padding (remdr % divsr) divsr (paddingString.getD t.paddingString)) rfl⟩
    · simp [InitialPhase.place, InitialPhase.newDirective, hstack, Directive.advance]
    · simp [Directive.defineLabel, InitialPhase.newDirective, htable]

theorem Takes.refl (h : p.Right t startLabel) : Takes t startLabel p p [] := ⟨h, by simp⟩

theorem Takes.trans {p'' : InitialPhase Name} {a b : List (Item Name)}
    (h : Takes t startLabel p p' a) (h' : Takes t startLabel p' p'' b) :
    Takes t startLabel p p'' (a ++ b) :=
  ⟨h'.right, by rw [h'.items, h.items, append_assoc]⟩

end InitialPhase

open InitialPhase

mutual

theorem initialPhaseOne_takes {startLabel : Name} :
    ∀ (instruction : Instruction Name) {p p' : InitialPhase Name}, p.Right t startLabel →
      (∀ e selectors, .field e selectors ∈ instruction.items → Ordered selectors) →
      initialPhaseOne t p instruction = .ok p' → Takes t startLabel p p' instruction.items
  | .constant bits, p, p', h, _, hp
  | .evaluation evaluation, p, p', h, _, hp
  | .blockOffset label, p, p', h, _, hp => by
      cases hp
      exact h.processFixedWidth rfl
  | .variableWidthExpression e selectors, p, p', h, hordered, hp =>
      h.processVariableWidth (hordered e selectors mem_cons_self) hp
  | .group body, p, p', h, hordered, hp => by
      rw [initialPhaseOne] at hp
      obtain ⟨p₁, hon, hp⟩ := bind_eq_ok.mp hp
      obtain ⟨p₂, hbody, hp⟩ := bind_eq_ok.mp hp
      cases hp
      have h₁ := h.tickOn hon
      have h₂ := initialPhaseLoop_takes body h₁.right hordered hbody
      simpa [Instruction.items] using (h₁.trans h₂).trans h₂.right.tickOff
  | .label name, p, p', h, _, hp => h.processLabel hp
  | .equate name e, p, p', h, _, hp
  | .schemeObject label, p, p', h, _, hp
  | .entryPoint label, p, p', h, _, hp => by
      cases hp
      exact ⟨⟨h.labels, h.place, h.pcs, h.wellFormed, h.group, h.nonneg, h.ordered⟩,
        (append_nil _).symm⟩
  | .padding remdr divsr paddingString, p, p', h, _, hp => h.processPadding hp

theorem initialPhaseLoop_takes {startLabel : Name} :
    ∀ (instructions : List (Instruction Name)) {p p' : InitialPhase Name}, p.Right t startLabel →
      (∀ e selectors, .field e selectors ∈ itemsOf instructions → Ordered selectors) →
      initialPhaseLoop t p instructions = .ok p' → Takes t startLabel p p' (itemsOf instructions)
  | [], p, p', h, _, hp => by
      rw [initialPhaseLoop] at hp
      cases hp
      exact Takes.refl h
  | instruction :: instructions, p, p', h, hordered, hp => by
      rw [initialPhaseLoop] at hp
      obtain ⟨p₁, hone, hp⟩ := bind_eq_ok.mp hp
      have h₁ := initialPhaseOne_takes instruction h
        (fun e selectors he => hordered e selectors (mem_append_left _ he)) hone
      have h₂ := initialPhaseLoop_takes instructions h₁.right
        (fun e selectors he => hordered e selectors (mem_append_right _ he)) hp
      exact h₁.trans h₂

end

theorem initialPhase_passed {startLabel endLabel : Name} {input : List (Instruction Name)}
    {p : InitialPhase Name}
    (hordered : ∀ e selectors, .field e selectors ∈ itemsOf input → Ordered selectors)
    (h : initialPhase t startLabel endLabel input = .ok p) :
    Passed t endLabel (startingPlace t) [(startLabel, 0)] p.directives p.table
      ∧ (∀ d ∈ p.directives, d.WellFormed t)
      ∧ p.directives.filterMap Directive.item? = itemsOf input := by
  obtain ⟨p₁, hloop, h⟩ := bind_eq_ok.mp h
  obtain ⟨table, htable, h⟩ := bind_eq_ok.mp h
  cases h
  have hstart : (0 : Int) ≤ startingPc t := by
    unfold startingPc
    omega
  have htakes : Takes t startLabel _ p₁ (itemsOf input) := initialPhaseLoop_takes input
    ⟨rfl, by simp [placeAfter, startingPlace, groupWidth], by intro i e pc selectors hi; simp at hi,
      by simp, by simp, hstart, le_refl _⟩ hordered hloop
  have hright := htakes.right.collectGroup
  obtain ⟨hnone, hpcmin, hpcmax, hstack, htable', -⟩ := collectGroup_fields p₁
  have hend : Passed t endLabel (placeAfter t (startingPlace t) p₁.collectGroup.directives)
      (finalValues p₁.table) [] table := by
    refine passed_end ?_ ?_ htable
    · exact finalPad_le_end htakes.right.nonneg htakes.right.ordered
        (setLabelValue_eq_ok htable).2.1
    · rw [hright.place]
      simp [groupWidth, hnone, hpcmin]
  refine ⟨⟨?_, hright.pcs, hend.ends⟩, hright.wellFormed, ?_⟩
  · refine bind_eq_ok.mpr ⟨finalValues p₁.table, ?_, hend.labels⟩
    rw [← htable']
    exact hright.labels
  · have := htakes.items
    rw [← items_collectGroup p₁] at this
    exact this

end MitScheme.Assembler
