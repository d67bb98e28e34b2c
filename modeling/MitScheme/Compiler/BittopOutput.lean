import MitScheme.Compiler.BittopRelax

/-!
# The output block

`assemble-directives!` goes through the places of the layout. It finds every label where the
table says it is, fills the block, and leaves in it what the selector of each field makes of
the value of the field.
-/

namespace MitScheme.Assembler

open List

variable {Name : Type} [DecidableEq Name] {t : Target}

/-! ## Names in the exact table -/

variable {name : Name} {directives : List (Directive Name)}

theorem define_lookup {α : Type} {table table' : SymbolTable Name α} {key : Name}
    {value value' : α} (h : table.define key value = .ok table')
    (hname : table.lookup name = some value') : table'.lookup name = some value' := by
  obtain ⟨hnone, rfl⟩ := define_eq_ok.mp h
  have hne : name ≠ key := by
    intro heq
    rw [heq, hnone] at hname
    cases hname
  rw [lookup_cons, beq_eq_false_iff_ne.mpr hne]
  exact hname

theorem define_lookup_self {α : Type} {table table' : SymbolTable Name α} {key : Name} {value : α}
    (h : table.define key value = .ok table') : table'.lookup key = some value := by
  obtain ⟨-, rfl⟩ := define_eq_ok.mp h
  exact lookup_cons_self

theorem defineLabel_lookup {p : Place} {values values' : SymbolTable Name Int}
    {d : Directive Name} {value : Int} (h : d.defineLabel t p values = .ok values')
    (hname : values.lookup name = some value) : values'.lookup name = some value := by
  cases d with
  | label key => exact define_lookup h hname
  | _ =>
      cases h
      exact hname

theorem defineLabels_lookup : ∀ {p : Place}
    {values values' : SymbolTable Name Int} {name : Name} {value : Int},
    defineLabels t p values directives = .ok values' → values.lookup name = some value →
      values'.lookup name = some value := by
  induction directives with
  | nil =>
      intro p values values' name value h hname
      cases h
      exact hname
  | cons d directives ih =>
      intro p values values' name value h hname
      obtain ⟨values₁, hd, h⟩ := bind_eq_ok.mp h
      exact ih h (defineLabel_lookup hd hname)

theorem defineLabels_label : ∀ {p : Place}
    {values values' : SymbolTable Name Int} {name : Name} {i : Nat},
    defineLabels t p values directives = .ok values' → directives[i]? = some (.label name) →
      values'.lookup name = some (machineAddress t (placeAfter t p (directives.take i)).pc) := by
  induction directives with
  | nil =>
      intro p values values' name i h hi
      simp at hi
  | cons d directives ih =>
      intro p values values' name i h hi
      obtain ⟨values₁, hd, h⟩ := bind_eq_ok.mp h
      cases i with
      | zero =>
          simp only [List.getElem?_cons_zero, Option.some.injEq] at hi
          subst hi
          exact defineLabels_lookup h (define_lookup_self hd)
      | succ i => exact ih h hi

theorem objectAddresses_lookup {objects : List Name} : ∀ {pc : Int}
    {values values' : SymbolTable Name Int} {name : Name} {value : Int},
    objectAddresses t objects pc values = .ok values' → values.lookup name = some value →
      values'.lookup name = some value := by
  induction objects with
  | nil =>
      intro pc values values' name value h hname
      cases h
      exact hname
  | cons label objects ih =>
      intro pc values values' name value h hname
      obtain ⟨values₁, hlabel, h⟩ := bind_eq_ok.mp h
      exact ih h (define_lookup hlabel hname)

theorem defineEquates_lookup {equates : List (Name × Expression Name)} :
    ∀ {values values' : SymbolTable Name Int} {name : Name} {value : Int},
    defineEquates equates values = .ok values' → values.lookup name = some value →
      values'.lookup name = some value := by
  induction equates with
  | nil =>
      intro values values' name value h hname
      cases h
      exact hname
  | cons equate equates ih =>
      intro values values' name value h hname
      obtain ⟨v, -, h⟩ := bind_eq_ok.mp h
      obtain ⟨values₁, hkey, h⟩ := bind_eq_ok.mp h
      exact ih h (define_lookup hkey hname)

variable {q : Queues Name}

theorem finishAddresses_lookup {values values' : SymbolTable Name Int} {value : Int} (h : finishAddresses t q values = .ok values')
    (hname : values.lookup name = some value) : values'.lookup name = some value := by
  obtain ⟨low, -, h⟩ := bind_eq_ok.mp h
  obtain ⟨values₁, hobjects, hequates⟩ := bind_eq_ok.mp h
  exact defineEquates_lookup hequates (objectAddresses_lookup hobjects hname)

theorem exactTable_lookup
    {values : SymbolTable Name Int} (h : exactTable t q directives = .ok values) :
    (∀ i name, directives[i]? = some (.label name) →
      values.lookup name = some (machineAddress t (placeAt t directives i).pc))
    ∧ values.lookup q.endLabel = some (machineAddress t
      (finalPad t (placeAfter t (startingPlace t) directives).pc)) := by
  obtain ⟨values₁, hlabels, hfinish⟩ := bind_eq_ok.mp h
  obtain ⟨values₂, hlabels, hend⟩ := bind_eq_ok.mp hlabels
  constructor
  · intro i name hi
    exact finishAddresses_lookup hfinish (define_lookup hend (defineLabels_label hlabels hi))
  · exact finishAddresses_lookup hfinish (define_lookup_self hend)

/-! ## Writing into the block -/

/-- The bits are in the block, in front of the position. -/
def Output.Wrote (o : Output Name) (at' : Nat) (bits : Bits) : Prop :=
  at' + bits.length ≤ o.position ∧ (o.block.drop at').take bits.length = bits

/-- What is in front of the position stays in the block. -/
structure Output.Grows (o o' : Output Name) : Prop where
  position : o.position ≤ o'.position
  block : o'.block.take o.position = o.block.take o.position

omit [DecidableEq Name] in
theorem Output.Grows.refl (o : Output Name) : o.Grows o := ⟨le_refl _, rfl⟩

omit [DecidableEq Name] in
theorem Output.Grows.trans {a b c : Output Name} (h : a.Grows b) (h' : b.Grows c) : a.Grows c where
  position := le_trans h.position h'.position
  block := by
    have h1 := congrArg (List.take a.position) h'.block
    rw [take_take, take_take, min_eq_left h.position] at h1
    rw [h1, h.block]

theorem take_drop_of_take_eq {a b : Bits} {n at' len : Nat} (h : b.take n = a.take n)
    (hle : at' + len ≤ n) : (b.drop at').take len = (a.drop at').take len := by
  rw [take_drop, take_drop]
  have h1 := congrArg (List.take (at' + len)) h
  rw [take_take, take_take, min_eq_left hle] at h1
  rw [h1]

omit [DecidableEq Name] in
theorem Output.Wrote.grows {o o' : Output Name} {at' : Nat} {bits : Bits} (h : o.Wrote at' bits)
    (hgrows : o.Grows o') : o'.Wrote at' bits := by
  refine ⟨le_trans h.1 hgrows.position, ?_⟩
  rw [take_drop_of_take_eq hgrows.block h.1]
  exact h.2

/-- Where the loop of `assemble-directives!` is. -/
structure Output.Follows (t : Target) (length : Nat) (p : Place) (o : Output Name) : Prop where
  pc : o.pc = p.pc
  pcStack : o.pcStack = p.pcStack
  position : (o.position : Int) = o.pc - startingPc t
  block : o.block.length = length

/-- Any failure but a phase error. -/
def NoPhaseError (failure : Failure Name) : Prop := failure ≠ .phaseError

theorem instructionInsert_ends (bits block : Bits) (position : Nat) :
    Ends (NoPhaseError : Failure Name → Prop) (fun block' =>
      block'.length = block.length ∧ block'.take position = block.take position
        ∧ (block'.drop position).take bits.length = bits)
      (instructionInsert bits block position) := by
  unfold instructionInsert
  split
  · have hlen : (block.take position).length = position := by
      rw [length_take]
      omega
    refine ⟨?_, ?_, ?_⟩
    · simp only [length_append, length_drop, hlen]
      omega
    · rw [append_assoc, take_append_of_le_length (le_of_eq hlen.symm)]
      rw [take_of_length_le (le_of_eq hlen)]
    · rw [append_assoc, drop_append_of_le_length (le_of_eq hlen.symm),
        drop_of_length_le (le_of_eq hlen), nil_append,
        take_append_of_le_length (le_refl _), take_length]
  · exact fun h => nomatch h

section

variable {length : Nat} {p : Place} {o : Output Name}

omit [DecidableEq Name] in
theorem Output.Follows.nonneg (h : o.Follows t length p) : startingPc t ≤ p.pc ∧ 0 ≤ p.pc := by
  have hposition := h.position
  have hpc := h.pc
  have hstart : 0 ≤ startingPc t := by
    unfold startingPc
    omega
  omega

theorem actualBits_ends (h : o.Follows t length p) {bits : Bits} {l : Int}
    (hl : (bits.length : Int) = l) :
    Ends NoPhaseError (fun o' => o'.Follows t length { p with pc := p.pc + l } ∧ o.Grows o'
      ∧ o'.Wrote o.position bits) (o.actualBits bits l) := by
  refine Ends.bind (instructionInsert_ends bits o.block o.position) fun block' hblock => ?_
  obtain ⟨hlength, htake, hdrop⟩ := hblock
  have hposition := h.position
  refine ⟨⟨?_, h.pcStack, ?_, ?_⟩, ⟨?_, htake⟩, le_refl _, hdrop⟩
  · exact congrArg (· + l) h.pc
  · push_cast
    omega
  · rw [hlength]
    exact h.block
  · exact Nat.le_add_right _ _

theorem pcValue_ends (h : o.Follows t length p) :
    Ends NoPhaseError (fun value => value = p.pcValue t) (o.pcValue t) := by
  unfold Output.pcValue Place.pcValue
  rw [h.pcStack]
  cases p.pcStack with
  | nil =>
      dsimp only
      unfold toMachinePc paranoidQuotient
      split
      · rw [h.pc]
        rfl
      · exact fun h => nomatch h
  | cons pc pcStack => rfl

variable {values : SymbolTable Name Int}

theorem evaluate_ends {pcValue : Option Int}
    (e : Expression Name) :
    Ends NoPhaseError (fun value => evaluate values pcValue e = .ok value)
      (evaluate values pcValue e) := by
  induction e with
  | integer n => rfl
  | pc =>
      cases pcValue with
      | none => exact fun h => nomatch h
      | some value => rfl
  | symbol name =>
      change Ends NoPhaseError (fun value => values.value name = .ok value) (values.value name)
      unfold SymbolTable.value
      split
      · rfl
      · exact fun h => nomatch h
  | plus a b iha ihb | minus a b iha ihb =>
      rw [evaluate]
      refine Ends.bind iha fun x hx => Ends.bind ihb fun y hy => ?_
      rw [hx, hy]
      rfl

theorem evaluation_ends (h : o.Follows t length p)
    {handler : Int → Bits} {e : Expression Name} {l : Nat}
    (hhandler : ∀ value, (handler value).length = l) :
    Ends NoPhaseError (fun o' => o'.Follows t length { p with pc := p.pc + l } ∧ o.Grows o'
      ∧ ∃ value, evaluate values (some (p.pcValue t)) e = .ok value
        ∧ o'.Wrote o.position (handler value)) (o.evaluation t values handler e l) := by
  refine Ends.bind (pcValue_ends h) fun pc hpc => ?_
  subst hpc
  refine Ends.bind (evaluate_ends e) fun value hvalue => ?_
  refine (actualBits_ends h (by rw [hhandler value])).mono fun o' ho' => ?_
  exact ⟨ho'.1, ho'.2.1, value, hvalue, ho'.2.2⟩

variable {startLabel : Name}

theorem blockOffset_ends (h : o.Follows t length p) (offset : Int)
    (lastBlabel blabel : Name) :
    Ends NoPhaseError (fun o' => o'.Follows t length { p with pc := p.pc + t.blockOffsetWidth }
      ∧ o.Grows o') (o.blockOffset t startLabel offset lastBlabel blabel) := by
  unfold Output.blockOffset
  split
  · exact fun h => nomatch h
  · rename_i bits hbits
    have hlength : (bits.length : Int) = t.blockOffsetWidth := by
      rw [t.blockOffset_length _ _ _ hbits]
    refine Ends.bind (actualBits_ends h hlength) fun o' ho' => ?_
    obtain ⟨hfollows, hgrows, -⟩ := ho'
    exact ⟨⟨hfollows.pc, hfollows.pcStack, hfollows.position, hfollows.block⟩,
      hgrows.position, hgrows.block⟩

theorem assembleFixed_ends
    (h : o.Follows t length p) (fixed : Fixed Name) :
    Ends NoPhaseError (fun o' => o'.Follows t length { p with pc := p.pc + fixed.width t }
      ∧ o.Grows o') (assembleFixed t startLabel values o fixed) := by
  cases fixed with
  | constant bits =>
      exact (actualBits_ends h rfl).mono fun o' ho' => ⟨ho'.1, ho'.2.1⟩
  | evaluation e =>
      exact (evaluation_ends h e.handler_length).mono fun o' ho' => ⟨ho'.1, ho'.2.1⟩
  | blockOffset label =>
      refine Ends.bind (evaluate_ends _) fun offset _ => ?_
      split
      · refine Ends.bind (evaluate_ends _) fun offset' _ => ?_
        exact blockOffset_ends h _ _ _
      · exact blockOffset_ends h _ _ _

theorem assembleGroup_ends
    (h : o.Follows t length p) (fixed : List (Fixed Name)) :
    Ends NoPhaseError (fun o' =>
      o'.Follows t length { p with pc := p.pc + ((fixed.map (Fixed.width t)).sum : Nat) }
        ∧ o.Grows o') (fixed.foldlM (assembleFixed t startLabel values) o) := by
  have hstart : o.Follows t length { p with pc := p.pc + ((0 : Nat) : Int) } := by
    simpa using h
  refine Ends.foldlM (fun (done : List (Fixed Name)) (o' : Output Name) => o'.Follows t length
    { p with pc := p.pc + ((done.map (Fixed.width t)).sum : Nat) } ∧ o.Grows o')
    ⟨hstart, Output.Grows.refl o⟩ fun before d after o' _ ho' => ?_
  refine (assembleFixed_ends ho'.1 d).mono fun o'' ho'' => ⟨?_, ho'.2.trans ho''.2⟩
  have hsum : p.pc + (((before ++ [d]).map (Fixed.width t)).sum : Nat)
      = p.pc + ((before.map (Fixed.width t)).sum : Nat) + d.width t := by
    rw [map_append, sum_append, map_singleton, sum_singleton]
    push_cast
    ring
  rw [hsum]
  exact ho''.1

end

/-! ## Going through the directives -/

theorem length_replicateBits (bstring : Bits) (nTimes : Nat) :
    (replicateBits bstring nTimes).length = nTimes * bstring.length := by
  simp [replicateBits]

/-- What `assemble-directives!` leaves of a field. -/
def FieldWritten (t : Target) (values : SymbolTable Name Int) (p : Place) (o : Output Name)
    (d : Directive Name) : Prop :=
  ∀ e sel, EncodedWith e sel d → ∃ value, evaluate values (some (p.pcValue t)) e = .ok value
    ∧ o.Wrote (p.pc - startingPc t).toNat (variableHandlerWrapper sel.handler value)

section

variable {length : Nat} {p : Place} {o : Output Name} {startLabel : Name}
  {values : SymbolTable Name Int}

omit [DecidableEq Name] in
theorem toMachinePc_ends (pc : Int) :
    Ends (NoPhaseError : Failure Name → Prop) (fun address => address = machineAddress t pc)
      (toMachinePc t pc) := by
  unfold toMachinePc paranoidQuotient
  split
  · rfl
  · exact fun h => nomatch h

omit [DecidableEq Name] in
theorem afterPadding_ends (remdr divsr pc : Int) :
    Ends (NoPhaseError : Failure Name → Prop) (fun pc' => pc % t.addressingGranularity = 0
      ∧ pc' = toBitstringPc t (paddify (machineAddress t pc) remdr divsr))
      (afterPadding t remdr divsr pc) := by
  unfold afterPadding toMachinePc paranoidQuotient
  split
  · rename_i hmod
    exact ⟨hmod, rfl⟩
  · exact fun h => nomatch h

theorem le_afterPadding {remdr divsr pc : Int} (hpc : 0 ≤ pc)
    (hmod : pc % t.addressingGranularity = 0) (hremdr : 0 ≤ remdr) (hdivsr : remdr < divsr) :
    pc ≤ toBitstringPc t (paddify (machineAddress t pc) remdr divsr) := by
  have hg : (0 : Int) ≤ t.addressingGranularity := le_of_lt granularity_pos
  have haddress : 0 ≤ machineAddress t pc := Int.ediv_nonneg hpc hg
  calc pc = toBitstringPc t (machineAddress t pc) := (toBitstringPc_machineAddress hmod).symm
    _ ≤ _ := mul_le_mul_of_nonneg_right (le_paddify haddress hremdr hdivsr) hg

theorem length_padding (paddingString : Bits) {room : Int} (hroom : 0 ≤ room)
    (hmod : room.tmod paddingString.length = 0) :
    ((replicateBits paddingString (room.tdiv paddingString.length).toNat).length : Int) = room := by
  rw [length_replicateBits]
  have hquotient : 0 ≤ room.tdiv paddingString.length :=
    Int.tdiv_nonneg hroom (Int.natCast_nonneg _)
  have heq := Int.mul_tdiv_add_tmod room paddingString.length
  rw [hmod, add_zero] at heq
  push_cast
  rw [Int.toNat_of_nonneg hquotient, mul_comm]
  exact heq

theorem assembleGroup_written (h : o.Follows t length p) {width : Nat} {fixed : List (Fixed Name)}
    (hwidth : (fixed.map (Fixed.width t)).sum = width) :
    Ends NoPhaseError (fun o' => o'.Follows t length { p with pc := p.pc + width } ∧ o.Grows o'
      ∧ ∀ e sel, EncodedWith e sel (.fixedWidthGroup width fixed) →
        ∃ value, evaluate values (some (p.pcValue t)) e = .ok value
          ∧ o'.Wrote o.position (variableHandlerWrapper sel.handler value))
      (fixed.foldlM (assembleFixed t startLabel values) o) := by
  by_cases hfield : ∃ evaluation, fixed = [.evaluation evaluation]
  · obtain ⟨evaluation, rfl⟩ := hfield
    subst hwidth
    refine Ends.bind (evaluation_ends h evaluation.handler_length) fun o' ho' => ?_
    obtain ⟨hfollows, hgrows, value, hvalue, hwrote⟩ := ho'
    refine ⟨hfollows, hgrows, fun e sel he => ?_⟩
    rcases he with he | ⟨pc, sels, he⟩
    · simp only [variableWidthToFixed, Directive.fixedWidthGroup.injEq, List.cons.injEq,
        Fixed.evaluation.injEq] at he
      obtain ⟨-, rfl, -⟩ := he
      exact ⟨value, hvalue, hwrote⟩
    · cases he
  · subst hwidth
    refine (assembleGroup_ends h fixed).mono fun o' ho' => ⟨ho'.1, ho'.2, fun e sel he => ?_⟩
    rcases he with he | ⟨pc, sels, he⟩
    · simp only [variableWidthToFixed, Directive.fixedWidthGroup.injEq] at he
      exact absurd ⟨_, he.2⟩ hfield
    · cases he

theorem assembleDirective_ends (h : o.Follows t length p) {d : Directive Name}
    (hd : d.WellFormed t)
    (hlabel : ∀ name, d = .label name → values.lookup name = some (machineAddress t p.pc)) :
    Ends NoPhaseError (fun o' => o'.Follows t length (d.advance t p) ∧ o.Grows o'
      ∧ FieldWritten t values p o' d) (assembleDirective t startLabel values o d) := by
  have hstart : (p.pc - startingPc t).toNat = o.position := by
    have := h.position
    have := h.pc
    omega
  unfold FieldWritten
  rw [hstart]
  cases d with
  | label name =>
      have hnot : ∀ e sel, ¬EncodedWith e sel (.label name : Directive Name) := by
        intro e sel he
        rcases he with he | ⟨pc, sels, he⟩ <;> cases he
      rw [assembleDirective, SymbolTable.value, hlabel name rfl]
      refine Ends.bind (P := fun pcdef => pcdef = machineAddress t p.pc) rfl fun pcdef hpcdef => ?_
      refine Ends.bind (toMachinePc_ends o.pc) fun address haddress => ?_
      rw [hpcdef, haddress, h.pc, if_neg (by simp)]
      exact ⟨h, Output.Grows.refl o, fun e sel he => absurd he (hnot e sel)⟩
  | tick on =>
      have hnot : ∀ e sel, ¬EncodedWith e sel (.tick on : Directive Name) := by
        intro e sel he
        rcases he with he | ⟨pc, sels, he⟩ <;> cases he
      cases on with
      | false =>
          refine ⟨⟨h.pc, ?_, h.position, h.block⟩, ⟨le_refl _, rfl⟩,
            fun e sel he => absurd he (hnot e sel)⟩
          exact congrArg List.tail h.pcStack
      | true =>
          refine Ends.bind (toMachinePc_ends o.pc) fun address haddress => ?_
          refine ⟨⟨h.pc, ?_, h.position, h.block⟩, ⟨le_refl _, rfl⟩,
            fun e sel he => absurd he (hnot e sel)⟩
          simp [Directive.advance, haddress, h.pc, h.pcStack]
  | fixedWidthGroup width fixed => exact assembleGroup_written h hd
  | variableWidthExpression e pc selectors =>
      cases selectors with
      | nil => exact absurd rfl hd.1
      | cons sel selectors =>
          refine (evaluation_ends h sel.handler_length).mono fun o' ho' => ?_
          obtain ⟨hfollows, hgrows, value, hvalue, hwrote⟩ := ho'
          refine ⟨hfollows, hgrows, fun e' sel' he => ?_⟩
          rcases he with he | ⟨pc', sels', he⟩
          · cases he
          · cases he
            exact ⟨value, hvalue, hwrote⟩
  | padding remdr divsr paddingString =>
      have hnot : ∀ e sel,
          ¬EncodedWith e sel (.padding remdr divsr paddingString : Directive Name) := by
        intro e sel he
        rcases he with he | ⟨pc, sels, he⟩ <;> cases he
      obtain ⟨hremdr, hdivsr⟩ := hd
      refine Ends.bind (afterPadding_ends remdr divsr o.pc) fun pc hpc => ?_
      obtain ⟨hmod, hpc⟩ := hpc
      rw [h.pc] at hmod hpc
      have hle := le_afterPadding h.nonneg.2 hmod hremdr hdivsr
      dsimp only
      split
      · intro hnone
        cases hnone
      · split
        · intro hnone
          cases hnone
        · rename_i hzero
          have hlength := length_padding paddingString (show 0 ≤ pc - o.pc by rw [h.pc]; omega)
            (not_not.mp hzero)
          refine (actualBits_ends h hlength).mono fun o' ho' => ?_
          refine ⟨?_, ho'.2.1, fun e sel he => absurd he (hnot e sel)⟩
          have hpc' : p.pc + (pc - o.pc) = pc := by
            rw [h.pc]
            omega
          have hfollows := ho'.1
          rw [hpc', hpc] at hfollows
          exact hfollows

theorem FieldWritten.grows {o' : Output Name} {d : Directive Name}
    (h : FieldWritten t values p o d) (hgrows : o.Grows o') : FieldWritten t values p o' d := by
  intro e sel he
  obtain ⟨value, hvalue, hwrote⟩ := h e sel he
  exact ⟨value, hvalue, hwrote.grows hgrows⟩

theorem assembleLoop_ends (h : o.Follows t length p) {directives : List (Directive Name)}
    (hwf : ∀ d ∈ directives, d.WellFormed t)
    (hlabels : ∀ i name, directives[i]? = some (.label name) →
      values.lookup name = some (machineAddress t (placeAfter t p (directives.take i)).pc)) :
    Ends NoPhaseError (fun o' => o'.Follows t length (placeAfter t p directives)
      ∧ ∀ i d, directives[i]? = some d →
        FieldWritten t values (placeAfter t p (directives.take i)) o' d)
      (directives.foldlM (assembleDirective t startLabel values) o) := by
  refine Ends.foldlM (fun (done : List (Directive Name)) (o' : Output Name) =>
    o'.Follows t length (placeAfter t p done) ∧ ∀ i d, done[i]? = some d →
      FieldWritten t values (placeAfter t p (done.take i)) o' d)
    ⟨h, by simp⟩ fun before d after o₁ hat ho₁ => ?_
  obtain ⟨hfollows, hwritten⟩ := ho₁
  have hmem : d ∈ directives := by
    rw [hat]
    simp
  have hlabel : ∀ name, d = .label name →
      values.lookup name = some (machineAddress t (placeAfter t p before).pc) := by
    intro name hname
    have hi : directives[before.length]? = some (.label name) := by
      rw [hat, List.getElem?_append_right (le_refl _), Nat.sub_self, hname]
      rfl
    have := hlabels before.length name hi
    rwa [hat, take_append_of_le_length (le_refl _), take_length] at this
  refine (assembleDirective_ends hfollows (hwf d hmem) hlabel).mono fun o' ho' => ?_
  obtain ⟨hfollows', hgrows, hfield⟩ := ho'
  refine ⟨?_, fun i d' hi => ?_⟩
  · rw [placeAfter_append]
    exact hfollows'
  · rcases lt_trichotomy i before.length with hlt | rfl | hgt
    · rw [List.getElem?_append_left hlt] at hi
      rw [take_append_of_le_length (le_of_lt hlt)]
      exact (hwritten i d' hi).grows hgrows
    · rw [List.getElem?_append_right (le_refl _), Nat.sub_self] at hi
      cases hi
      rw [take_append_of_le_length (le_refl _), take_length]
      exact hfield
    · rw [List.getElem?_eq_none (by rw [length_append, length_singleton]; omega)] at hi
      cases hi

end

/-- The output that the loop starts with. -/
def startingOutput (t : Target) (startLabel : Name) (length : Nat) : Output Name :=
  { block := List.replicate length false, pc := startingPc t, pcStack := [], position := 0
    lastBlabel := startLabel, blabel := startLabel }

omit [DecidableEq Name] in
theorem follows_startingOutput (startLabel : Name) (length : Nat) :
    (startingOutput t startLabel length).Follows t length (startingPlace t) where
  pc := rfl
  pcStack := rfl
  position := by simp [startingOutput]
  block := by simp [startingOutput]

theorem toBitstringPc_end {pc : Int} (hpc : 0 ≤ pc) :
    toBitstringPc t (machineAddress t (finalPad t pc)) = finalPad t pc := by
  refine toBitstringPc_machineAddress (Int.emod_eq_zero_of_dvd ?_)
  have hwidth : (0 : Int) < t.schemeObjectWidth := by exact_mod_cast t.schemeObjectWidth_pos
  obtain ⟨q, r, -, -, -, -, hpad⟩ := paddify_spec hpc (le_refl 0) hwidth
  unfold finalPad
  rw [hpad, add_zero]
  exact Dvd.dvd.mul_left (by exact_mod_cast t.granularity_dvd) _

theorem finalPhase_ends {directives : List (Directive Name)}
    {table : SymbolTable Name Interval} (hwf : ∀ d ∈ directives, d.WellFormed t)
    (hexact : exactTable t q directives = .ok (finalValues table)) :
    Ends NoPhaseError (fun block =>
      (block.length : Int) = toBitstringPc t (machineAddress t
          (finalPad t (placeAfter t (startingPlace t) directives).pc)) - startingPc t
        ∧ ∀ i d e sel, directives[i]? = some d → EncodedWith e sel d →
          ∃ value, evaluate (finalValues table) (some ((placeAt t directives i).pcValue t)) e
              = .ok value
            ∧ (block.drop ((placeAt t directives i).pc - startingPc t).toNat).take sel.length
              = variableHandlerWrapper sel.handler value)
      (finalPhase t q.startLabel q.endLabel directives table) := by
  obtain ⟨hlabels, hend⟩ := exactTable_lookup hexact
  refine Ends.bind (P := fun v => v = machineAddress t
    (finalPad t (placeAfter t (startingPlace t) directives).pc)) ?_ fun v hv => ?_
  · rw [SymbolTable.value, hend]
    rfl
  · refine Ends.bind (assembleLoop_ends
      (follows_startingOutput q.startLabel (toBitstringPc t v - startingPc t).toNat) hwf hlabels)
      fun o ho => ?_
    obtain ⟨hfollows, hwritten⟩ := ho
    have hpc := hfollows.pc
    have hnonneg := hfollows.nonneg
    unfold Output.endAssembly
    rw [if_neg (by simpa using hfollows.position)]
    refine Ends.bind (P := fun w => w = v) ?_ fun w hw => ?_
    · rw [SymbolTable.value, hend]
      exact hv.symm
    · refine Ends.bind (toMachinePc_ends _) fun address haddress => ?_
      rw [if_neg (by rw [hw, hv, haddress, hpc]; simp)]
      refine (instructionInsert_ends _ _ _).mono fun block hblock => ?_
      obtain ⟨hlength, htake, -⟩ := hblock
      refine ⟨?_, fun i d e sel hi he => ?_⟩
      · have hle : (placeAfter t (startingPlace t) directives).pc
            ≤ finalPad t (placeAfter t (startingPlace t) directives).pc :=
          le_paddify hnonneg.2 (le_refl 0) (by exact_mod_cast t.schemeObjectWidth_pos)
        rw [hlength, hfollows.block, hv, toBitstringPc_end hnonneg.2]
        omega
      · obtain ⟨value, hvalue, hwrote⟩ := hwritten i d hi e sel he
        refine ⟨value, hvalue, ?_⟩
        have hsel := sel.handler_length value
        rw [← hsel]
        refine Eq.trans (take_drop_of_take_eq htake hwrote.1) hwrote.2

end MitScheme.Assembler
