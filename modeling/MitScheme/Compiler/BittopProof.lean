import MitScheme.Compiler.Bittop
import MitScheme.Compiler.BitutlProof

/-!
# Layouts

Where the directives are when every field has the first of its selectors, and what the labels
are worth there. The passes of `relax!` leave a field fewer selectors to choose from, or one:
the layouts that are open at a pass are those of the lists of directives that the pass can
still be narrowed to.
-/

namespace MitScheme.Assembler

variable {Name : Type} (t : Target)

/-- An address in bits, and the values of `*PC*` in the groups around it. -/
structure Place where
  pc : Int
  pcStack : List Int

/-- An address in the units of the machine. -/
def machineAddress (pc : Int) : Int := pc / t.addressingGranularity

/-- The value of `*PC*` at a place. -/
def Place.pcValue (p : Place) : Int :=
  match p.pcStack with
  | [] => machineAddress t p.pc
  | pc :: _ => pc

/-- The length of the selector that would be used. -/
def firstLength : List Selector → Nat
  | [] => 0
  | sel :: _ => sel.length

/-- The place after a directive. -/
def Directive.advance (p : Place) : Directive Name → Place
  | .label _ => p
  | .tick on =>
      { p with pcStack := if on then machineAddress t p.pc :: p.pcStack else p.pcStack.tail }
  | .fixedWidthGroup width _ => { p with pc := p.pc + width }
  | .variableWidthExpression _ _ selectors => { p with pc := p.pc + firstLength selectors }
  | .padding remdr divsr _ =>
      { p with pc := toBitstringPc t (paddify (machineAddress t p.pc) remdr divsr) }

/-- The place after some directives. -/
def placeAfter (p : Place) (directives : List (Directive Name)) : Place :=
  directives.foldl (fun p d => d.advance t p) p

/-- Where the code starts. -/
def startingPlace : Place := ⟨startingPc t, []⟩

/-- The place of a directive of a list. -/
def placeAt (directives : List (Directive Name)) (i : Nat) : Place :=
  placeAfter t (startingPlace t) (directives.take i)

variable [DecidableEq Name]

/-- A label is bound to the address it is at. -/
def Directive.defineLabel (p : Place) (table : SymbolTable Name Int) :
    Directive Name → Except (Failure Name) (SymbolTable Name Int)
  | .label name => table.define name (machineAddress t p.pc)
  | _ => .ok table

def defineLabels : Place → SymbolTable Name Int → List (Directive Name) →
    Except (Failure Name) (SymbolTable Name Int)
  | _, table, [] => .ok table
  | p, table, d :: directives => do
      defineLabels (d.advance t p) (← d.defineLabel t p table) directives

/-- The labels of the directives and the end of the code. -/
def labelAddresses (endLabel : Name) (p : Place) (table : SymbolTable Name Int)
    (directives : List (Directive Name)) : Except (Failure Name) (SymbolTable Name Int) := do
  let table ← defineLabels t p table directives
  table.define endLabel (machineAddress t (finalPad t (placeAfter t p directives).pc))

def objectAddresses : List Name → Int → SymbolTable Name Int →
    Except (Failure Name) (SymbolTable Name Int)
  | [], _, table => .ok table
  | label :: objects, pc, table => do
      let table ← table.define label (machineAddress t pc)
      objectAddresses objects (pc + t.schemeObjectWidth) table

/-- The objects follow the code, and the equates are worked out with all of that. -/
def finishAddresses (q : Queues Name) (table : SymbolTable Name Int) :
    Except (Failure Name) (SymbolTable Name Int) := do
  let table ← objectAddresses t q.objects (toBitstringPc t (← table.value q.endLabel)) table
  defineEquates q.equates table

/-- What every name is worth in the layout of a list of directives. -/
def exactTable (q : Queues Name) (directives : List (Directive Name)) :
    Except (Failure Name) (SymbolTable Name Int) := do
  let table ← labelAddresses t q.endLabel (startingPlace t) [(q.startLabel, 0)] directives
  finishAddresses t q table

/-- What the expression of a field is worth in the layout of a list of directives. -/
def fieldValue (q : Queues Name) (directives : List (Directive Name)) (i : Nat)
    (expression : Expression Name) : Except (Failure Name) Int := do
  evaluate (← exactTable t q directives) (some ((placeAt t directives i).pcValue t)) expression

/-- How many bits a directive of fixed width makes. -/
def Fixed.width : Fixed Name → Nat
  | .constant bits => bits.length
  | .evaluation e => e.length
  | .blockOffset _ => t.blockOffsetWidth

/-- The selectors of a field are ordered by increasing length. -/
def Ordered (selectors : List Selector) : Prop :=
  selectors.Pairwise fun a b => a.length ≤ b.length

/-- What `initial-phase` makes sure of. -/
def Directive.WellFormed : Directive Name → Prop
  | .fixedWidthGroup width directives => (directives.map (Fixed.width t)).sum = width
  | .variableWidthExpression _ _ selectors => selectors ≠ [] ∧ Ordered selectors
  | .padding remdr divsr _ => 0 ≤ remdr ∧ remdr < divsr
  | _ => True

/-- What a directive can still become. -/
inductive Narrows : Directive Name → Directive Name → Prop
  | same (d : Directive Name) (h : d.isVariable = false) : Narrows d d
  | field {e : Expression Name} {pc pc' : Interval} {selectors selectors' : List Selector} :
      selectors' ≠ [] → selectors' <:+ selectors →
        Narrows (.variableWidthExpression e pc selectors)
          (.variableWidthExpression e pc' selectors')
  | fixed {e : Expression Name} {pc : Interval} {selectors : List Selector} {sel : Selector} :
      sel ∈ selectors →
        Narrows (.variableWidthExpression e pc selectors) (variableWidthToFixed e sel)

/-- The field is encoded with the selector. -/
def EncodedWith (e : Expression Name) (sel : Selector) (d : Directive Name) : Prop :=
  d = variableWidthToFixed e sel ∨ ∃ pc sels, d = .variableWidthExpression e pc (sel :: sels)

/-- The value is in the range of the selector. -/
def Selector.InRange (sel : Selector) (value : Int) : Prop :=
  (∀ low ∈ sel.low, low ≤ value) ∧ (∀ high ∈ sel.high, value ≤ high)

/-- Whenever a pass fixes a field, the interval of its expression covers what the expression is
worth in every layout that is still open. -/
def Covers (q : Queues Name) (p : Pass Name) : Prop :=
  ∀ table, finishSymbolTable t q.endLabel q.objects q.equates p.table = .ok table →
    ∀ i e pc selectors interval,
      p.directives[i]? = some (.variableWidthExpression e pc selectors) →
      evaluate table (some pc) e = .ok interval →
      ∀ d filtered, processVariable e pc p.widening (intervalValues interval).1
          (intervalValues interval).2 selectors false = .ok (d, true, filtered) →
        ∀ open', List.Forall₂ Narrows p.directives open' → ∀ value,
          fieldValue t q open' i e = .ok value →
            (intervalValues interval).1 ≤ value ∧ value ≤ (intervalValues interval).2

/-!
## Passes over the directives

Every pass leaves a table of intervals whose final values are the addresses in the layout of
the directives at that moment, and narrows the directives. So a field that is determined in
the last pass is determined by the addresses themselves. One that was fixed before that is
right if the interval it was fixed by covered every layout that was open then.
-/

variable {t}

/-! ## Final values -/

theorem lookup_finalValues (table : SymbolTable Name Interval) (key : Name) :
    (finalValues table).lookup key = (table.lookup key).map intervalFinalValue := by
  induction table with
  | nil => rfl
  | cons binding table ih =>
      obtain ⟨name, value⟩ := binding
      unfold finalValues at ih ⊢
      rw [List.map_cons, List.lookup_cons, List.lookup_cons, ih]
      cases key == name <;> rfl

variable {key : Name} {table table' : SymbolTable Name Interval}
  {pc high low divsr remdr pcmax pcmin : Int}

theorem define_eq_ok {α : Type} {table table' : SymbolTable Name α} {value : α} :
    table.define key value = .ok table'
      ↔ table.lookup key = none ∧ table' = (key, value) :: table := by
  unfold SymbolTable.define
  cases h : table.lookup key with
  | none => simp [eq_comm]
  | some v => simp

theorem define_finalValues {value : Interval} (h : table.define key value = .ok table') :
    (finalValues table).define key (intervalFinalValue value) = .ok (finalValues table') := by
  obtain ⟨hnone, rfl⟩ := define_eq_ok.mp h
  refine define_eq_ok.mpr ⟨?_, rfl⟩
  rw [lookup_finalValues, hnone]
  rfl

theorem value_eq_ok {α : Type} {table : SymbolTable Name α} {value : α} :
    table.value key = .ok value ↔ table.lookup key = some value := by
  unfold SymbolTable.value
  cases table.lookup key <;> simp

theorem value_finalValues {value : Interval} (h : table.value key = .ok value) :
    (finalValues table).value key = .ok (intervalFinalValue value) := by
  rw [value_eq_ok] at h ⊢
  rw [lookup_finalValues, h]
  rfl

theorem evaluate_finalValues {pc : Option Interval}
    {e : Expression Name} : ∀ {value : Interval}, evaluate table pc e = .ok value →
      evaluate (finalValues table) (pc.map intervalFinalValue) e
        = .ok (intervalFinalValue value) := by
  induction e with
  | integer n =>
      intro value h
      cases h
      rfl
  | pc =>
      intro value h
      cases pc with
      | none => cases h
      | some pc =>
          cases h
          rfl
  | symbol name => exact fun h => value_finalValues h
  | plus a b iha ihb =>
      intro value h
      obtain ⟨x, hx, h⟩ := bind_eq_ok.mp h
      obtain ⟨y, hy, h⟩ := bind_eq_ok.mp h
      cases h
      refine bind_eq_ok.mpr ⟨_, iha hx, bind_eq_ok.mpr ⟨_, ihb hy, ?_⟩⟩
      exact congrArg Except.ok (at_plus _ _).symm
  | minus a b iha ihb =>
      intro value h
      obtain ⟨x, hx, h⟩ := bind_eq_ok.mp h
      obtain ⟨y, hy, h⟩ := bind_eq_ok.mp h
      cases h
      refine bind_eq_ok.mpr ⟨_, iha hx, bind_eq_ok.mpr ⟨_, ihb hy, ?_⟩⟩
      exact congrArg Except.ok (at_minus _ _).symm

theorem defineEquates_finalValues {equates : List (Name × Expression Name)} :
    ∀ {table table' : SymbolTable Name Interval}, defineEquates equates table = .ok table' →
      defineEquates equates (finalValues table) = .ok (finalValues table') := by
  induction equates with
  | nil =>
      intro table table' h
      cases h
      rfl
  | cons equate equates ih =>
      intro table table' h
      obtain ⟨value, hvalue, h⟩ := bind_eq_ok.mp h
      obtain ⟨table₁, hdefine, h⟩ := bind_eq_ok.mp h
      refine bind_eq_ok.mpr ⟨_, evaluate_finalValues hvalue, ?_⟩
      exact bind_eq_ok.mpr ⟨_, define_finalValues hdefine, ih h⟩

theorem granularity_pos : (0 : Int) < t.addressingGranularity := by
  exact_mod_cast Nat.pos_of_dvd_of_pos t.granularity_dvd t.schemeObjectWidth_pos

theorem toMachinePc_eq_ok {address : Int} :
    (toMachinePc t pc : Except (Failure Name) Int) = .ok address
      ↔ pc % t.addressingGranularity = 0 ∧ address = machineAddress t pc := by
  unfold toMachinePc paranoidQuotient machineAddress
  split
  · rename_i h
    simp [h, eq_comm]
  · rename_i h
    simp [h]

theorem toBitstringPc_machineAddress (h : pc % t.addressingGranularity = 0) :
    toBitstringPc t (machineAddress t pc) = pc := Int.ediv_mul_cancel_of_emod_eq_zero h

theorem labelToMachineInterval_eq_ok {interval : Interval}
    (h : (labelToMachineInterval t low high : Except (Failure Name) Interval) = .ok interval) :
    low % t.addressingGranularity = 0 ∧ high % t.addressingGranularity = 0
      ∧ interval = .interval 0 [⟨⟨machineAddress t low, machineAddress t high⟩, 1⟩] := by
  obtain ⟨min, hmin, h⟩ := bind_eq_ok.mp h
  obtain ⟨max, hmax, h⟩ := bind_eq_ok.mp h
  obtain ⟨hlow, rfl⟩ := toMachinePc_eq_ok.mp hmin
  obtain ⟨hhigh, rfl⟩ := toMachinePc_eq_ok.mp hmax
  cases h
  exact ⟨hlow, hhigh, rfl⟩

theorem at_machineInterval (position : Point → Int) (point : Point) :
    (Interval.interval 0 [⟨point, 1⟩]).at position = position point := by
  simp [Interval.at, sumSegments]

theorem setLabelValue_eq_ok {name : Name} (h : setLabelValue t table name low high = .ok table') :
    low % t.addressingGranularity = 0 ∧ high % t.addressingGranularity = 0
      ∧ table.define name
          (.interval 0 [⟨⟨machineAddress t low, machineAddress t high⟩, 1⟩]) = .ok table' := by
  obtain ⟨interval, hinterval, h⟩ := bind_eq_ok.mp h
  obtain ⟨hlow, hhigh, rfl⟩ := labelToMachineInterval_eq_ok hinterval
  exact ⟨hlow, hhigh, h⟩

theorem setLabelValue_finalValues {name : Name} (h : setLabelValue t table name low high = .ok table') :
    (finalValues table).define name (machineAddress t low) = .ok (finalValues table') := by
  obtain ⟨-, -, h⟩ := setLabelValue_eq_ok h
  have := define_finalValues h
  rwa [intervalFinalValue, at_machineInterval] at this

theorem afterPadding_eq_ok {pc' : Int}
    (h : (afterPadding t remdr divsr pc : Except (Failure Name) Int) = .ok pc') :
    pc % t.addressingGranularity = 0
      ∧ pc' = toBitstringPc t (paddify (machineAddress t pc) remdr divsr) := by
  obtain ⟨address, haddress, h⟩ := bind_eq_ok.mp h
  obtain ⟨hpc, rfl⟩ := toMachinePc_eq_ok.mp haddress
  cases h
  exact ⟨hpc, rfl⟩

theorem paddify_spec (hpc : 0 ≤ pc) (hremdr : 0 ≤ remdr)
    (hdivsr : remdr < divsr) : ∃ q r, pc = q * divsr + r ∧ 0 ≤ r ∧ r < divsr ∧ 0 ≤ q
      ∧ paddify pc remdr divsr = (if r ≤ remdr then q else q + 1) * divsr + remdr := by
  have hpos : 0 < divsr := by omega
  refine ⟨pc / divsr, pc % divsr, ?_, Int.emod_nonneg _ (by omega), Int.emod_lt_of_pos _ hpos,
    Int.ediv_nonneg hpc (by omega), ?_⟩
  · have := Int.mul_ediv_add_emod pc divsr
    linarith [Int.mul_comm divsr (pc / divsr)]
  · have hmod := Int.mul_ediv_add_emod pc divsr
    unfold paddify
    dsimp only
    rw [Int.tmod_eq_emod_of_nonneg hpc]
    split <;> linarith [Int.mul_comm divsr (pc / divsr), Int.add_mul (pc / divsr) 1 divsr]

theorem paddify_mono {a b : Int} (ha : 0 ≤ a) (hab : a ≤ b) (hremdr : 0 ≤ remdr)
    (hdivsr : remdr < divsr) : paddify a remdr divsr ≤ paddify b remdr divsr := by
  obtain ⟨q, r, rfl, hr, hr', -, hpad⟩ := paddify_spec ha hremdr hdivsr
  obtain ⟨q', s, rfl, hs, hs', -, hpad'⟩ := paddify_spec (le_trans ha hab) hremdr hdivsr
  have hmul : (if r ≤ remdr then q else q + 1) ≤ (if s ≤ remdr then q' else q' + 1) := by
    rcases lt_trichotomy q q' with hlt | heq | hgt
    · split <;> split <;> omega
    · subst heq
      split <;> split <;> omega
    · -- then the second address would be the smaller one
      have := mul_le_mul_of_nonneg_right (show q' + 1 ≤ q by omega) (show 0 ≤ divsr by omega)
      linarith
  have := mul_le_mul_of_nonneg_right hmul (show 0 ≤ divsr by omega)
  linarith

theorem le_paddify (hpc : 0 ≤ pc) (hremdr : 0 ≤ remdr)
    (hdivsr : remdr < divsr) : pc ≤ paddify pc remdr divsr := by
  obtain ⟨q, r, rfl, hr, hr', -, hpad⟩ := paddify_spec hpc hremdr hdivsr
  rw [hpad]
  split
  · omega
  · linarith [Int.add_mul q 1 divsr]

theorem finalPad_le (hpc : 0 ≤ pc) (hmod : pc % t.addressingGranularity = 0) :
    finalPad t pc ≤ pc + t.maximumPaddingLength := by
  have hwidth : (0 : Int) < t.schemeObjectWidth := by exact_mod_cast t.schemeObjectWidth_pos
  have hsum : (t.schemeObjectWidth : Int) ≤ t.maximumPaddingLength + t.addressingGranularity := by
    exact_mod_cast t.padding_suffices
  have hdvd : (t.addressingGranularity : Int) ∣ t.schemeObjectWidth := by
    exact_mod_cast t.granularity_dvd
  obtain ⟨q, r, heq, hr, hr', -, hpad⟩ := paddify_spec hpc (le_refl 0) hwidth
  unfold finalPad
  rw [hpad]
  split
  · omega
  · -- what is over is a positive multiple of the granularity
    have hrdvd : (t.addressingGranularity : Int) ∣ r := by
      have h := Int.dvd_sub (Int.dvd_of_emod_eq_zero hmod) (Dvd.dvd.mul_left hdvd q)
      rwa [heq, add_sub_cancel_left] at h
    have := Int.le_of_dvd (by omega) hrdvd
    linarith [Int.add_mul q 1 (t.schemeObjectWidth : Int)]

theorem finalPad_mono {a b : Int} (ha : 0 ≤ a) (hab : a ≤ b) : finalPad t a ≤ finalPad t b :=
  paddify_mono ha hab (le_refl 0) (by exact_mod_cast t.schemeObjectWidth_pos)

theorem lengthsLoop_spec {selectors : List Selector} : ∀ {min max : Nat},
    (∀ sel ∈ selectors, min ≤ sel.length) → min ≤ max →
      (lengthsLoop selectors min max).1 = min ∧ max ≤ (lengthsLoop selectors min max).2
        ∧ ∀ sel ∈ selectors, sel.length ≤ (lengthsLoop selectors min max).2 := by
  induction selectors with
  | nil =>
      intro min max _ hle
      exact ⟨rfl, le_refl _, by simp⟩
  | cons sel selectors ih =>
      intro min max hmin hle
      have hsel := hmin sel List.mem_cons_self
      have hrest : ∀ s ∈ selectors, min ≤ s.length :=
        fun s hs => hmin s (List.mem_cons_of_mem sel hs)
      rw [lengthsLoop, if_neg (by omega)]
      by_cases hmax : max < sel.length
      · rw [if_pos hmax]
        obtain ⟨h1, h2, h3⟩ := ih hrest hsel
        refine ⟨h1, by omega, fun s hs => ?_⟩
        rcases List.mem_cons.mp hs with rfl | hs
        · exact h2
        · exact h3 s hs
      · rw [if_neg hmax]
        obtain ⟨h1, h2, h3⟩ := ih hrest hle
        refine ⟨h1, h2, fun s hs => ?_⟩
        rcases List.mem_cons.mp hs with rfl | hs
        · omega
        · exact h3 s hs

theorem variableWidthLengths_eq_ok {selectors : List Selector} {minl maxl : Nat}
    (h : (variableWidthLengths selectors : Except (Failure Name) _) = .ok (minl, maxl))
    (hordered : Ordered selectors) :
    selectors ≠ [] ∧ minl = firstLength selectors ∧ minl ≤ maxl
      ∧ ∀ sel ∈ selectors, sel.length ≤ maxl := by
  cases selectors with
  | nil => cases h
  | cons sel selectors =>
      obtain ⟨hfirst, -⟩ := List.pairwise_cons.mp hordered
      obtain ⟨h1, h2, h3⟩ := lengthsLoop_spec hfirst (le_refl sel.length)
      simp only [variableWidthLengths, Except.ok.injEq, Prod.ext_iff] at h
      obtain ⟨rfl, rfl⟩ := h
      refine ⟨by simp, h1, by rw [h1]; exact h2, fun s hs => ?_⟩
      rcases List.mem_cons.mp hs with rfl | hs
      · exact h2
      · exact h3 s hs

/-! ## The table that a pass leaves -/

/-- The intervals of `*PC*` in the directives have the right final values. -/
def PcsRight (t : Target) (p : Place) (directives : List (Directive Name)) : Prop :=
  ∀ i e pc selectors, directives[i]? = some (.variableWidthExpression e pc selectors) →
    intervalFinalValue pc = (placeAfter t p (directives.take i)).pcValue t

/-- What a pass leaves, when it comes to a place with a table. -/
structure Passed (t : Target) (endLabel : Name) (p : Place) (values : SymbolTable Name Int)
    (directives : List (Directive Name)) (table : SymbolTable Name Interval) : Prop where
  labels : labelAddresses t endLabel p values directives = .ok (finalValues table)
  pcs : PcsRight t p directives
  ends : ∃ interval, table.value endLabel = .ok interval
    ∧ interval.at Point.min ≤ interval.at Point.max

theorem labelAddresses_cons (endLabel : Name) (p : Place) (values : SymbolTable Name Int)
    (d : Directive Name) (directives : List (Directive Name)) :
    labelAddresses t endLabel p values (d :: directives)
      = d.defineLabel t p values >>= fun values =>
          labelAddresses t endLabel (d.advance t p) values directives := by
  unfold labelAddresses
  rw [defineLabels]
  cases d.defineLabel t p values <;> rfl

theorem Passed.cons {endLabel : Name} {p : Place} {values values' : SymbolTable Name Int}
    {d : Directive Name} {directives : List (Directive Name)} {table : SymbolTable Name Interval}
    (h : Passed t endLabel (d.advance t p) values' directives table)
    (hlabel : d.defineLabel t p values = .ok values')
    (hpc : ∀ e pc selectors, d = .variableWidthExpression e pc selectors →
      intervalFinalValue pc = p.pcValue t) :
    Passed t endLabel p values (d :: directives) table where
  labels := by
    rw [labelAddresses_cons]
    exact bind_eq_ok.mpr ⟨values', hlabel, h.labels⟩
  pcs i e pc selectors hi := by
    cases i with
    | zero => exact hpc e pc selectors (by simpa using hi)
    | succ i => exact h.pcs i e pc selectors (by simpa using hi)
  ends := h.ends

theorem emod_of_add_padding (h : (pc + t.maximumPaddingLength) % t.addressingGranularity = 0) :
    pc % t.addressingGranularity = 0 := by
  have hdvd : (t.addressingGranularity : Int) ∣ t.maximumPaddingLength := by
    exact_mod_cast t.granularity_dvd_padding
  exact Int.emod_eq_zero_of_dvd ((Int.dvd_add_left hdvd).mp (Int.dvd_of_emod_eq_zero h))

theorem passed_end {endLabel : Name} {p : Place} (hle : low ≤ high)
    (hlow : low = finalPad t p.pc) (h : setLabelValue t table endLabel low high = .ok table') :
    Passed t endLabel p (finalValues table) [] table' where
  labels := by
    have := setLabelValue_finalValues h
    rwa [hlow] at this
  pcs i e pc selectors hi := by simp at hi
  ends := by
    obtain ⟨-, -, h⟩ := setLabelValue_eq_ok h
    obtain ⟨-, rfl⟩ := define_eq_ok.mp h
    refine ⟨_, value_eq_ok.mpr List.lookup_cons_self, ?_⟩
    rw [at_machineInterval, at_machineInterval]
    exact Int.ediv_le_ediv granularity_pos hle

theorem pcInterval_eq_ok {pcStack : List Interval} {pc : Interval}
    (h : (pcInterval t pcStack pcmin pcmax : Except (Failure Name) Interval) = .ok pc) :
    intervalFinalValue pc = Place.pcValue t ⟨pcmin, pcStack.map intervalFinalValue⟩ := by
  cases pcStack with
  | nil =>
      obtain ⟨-, -, rfl⟩ := labelToMachineInterval_eq_ok h
      exact at_machineInterval Point.min _
  | cons pc' pcStack =>
      cases h
      rfl

theorem tick_eq_ok {on : Bool} {pcStack pcStack' : List Interval}
    (h : (tick t on pcStack pcmin pcmax : Except (Failure Name) (List Interval)) = .ok pcStack') :
    (⟨pcmin, pcStack'.map intervalFinalValue⟩ : Place)
      = (Directive.tick on : Directive Name).advance t ⟨pcmin, pcStack.map intervalFinalValue⟩ := by
  cases on with
  | false =>
      cases h
      simp [Directive.advance, List.map_tail]
  | true =>
      obtain ⟨pc, hpc, h⟩ := bind_eq_ok.mp h
      cases h
      obtain ⟨-, -, rfl⟩ := labelToMachineInterval_eq_ok hpc
      simp [Directive.advance, intervalFinalValue, at_machineInterval]

theorem afterPadding_mono (hmin : 0 ≤ pcmin)
    (hle : pcmin ≤ pcmax) (hremdr : 0 ≤ remdr) (hdivsr : remdr < divsr) :
    0 ≤ toBitstringPc t (paddify (machineAddress t pcmin) remdr divsr)
      ∧ toBitstringPc t (paddify (machineAddress t pcmin) remdr divsr)
        ≤ toBitstringPc t (paddify (machineAddress t pcmax) remdr divsr) := by
  have hg : (0 : Int) < t.addressingGranularity := granularity_pos
  have haddress : 0 ≤ machineAddress t pcmin := Int.ediv_nonneg hmin (le_of_lt hg)
  have hmono := Int.ediv_le_ediv hg hle
  constructor
  · exact mul_nonneg (le_trans haddress (le_paddify haddress hremdr hdivsr)) (le_of_lt hg)
  · exact mul_le_mul_of_nonneg_right (paddify_mono haddress hmono hremdr hdivsr) (le_of_lt hg)

theorem finalPad_le_end (hmin : 0 ≤ pcmin) (hle : pcmin ≤ pcmax)
    (hmod : (pcmax + t.maximumPaddingLength) % t.addressingGranularity = 0) :
    finalPad t pcmin ≤ pcmax + t.maximumPaddingLength :=
  le_trans (finalPad_mono hmin hle) (finalPad_le (le_trans hmin hle) (emod_of_add_padding hmod))

/-- A directive after `phase-1`, which may have another interval of `*PC*`. -/
inductive Relocated : Directive Name → Directive Name → Prop
  | same (d : Directive Name) : Relocated d d
  | field {e : Expression Name} {pc pc' : Interval} {selectors : List Selector} :
      Relocated (.variableWidthExpression e pc selectors)
        (.variableWidthExpression e pc' selectors)

omit [DecidableEq Name] in
theorem Relocated.narrows {d d' : Directive Name} (h : Relocated d d') (hd : d.WellFormed t) :
    Narrows d d' := by
  cases h with
  | same =>
      cases d with
      | variableWidthExpression e pc selectors => exact .field hd.1 (List.suffix_refl _)
      | _ => exact .same _ rfl
  | field => exact .field hd.1 (List.suffix_refl _)

theorem phase1_passed {endLabel : Name} {widening : Bool} {directives : List (Directive Name)} :
    ∀ {pcmin pcmax : Int} {pcStack : List Interval} {table table' : SymbolTable Name Interval}
      {directives' : List (Directive Name)},
      phase1 t endLabel widening directives pcmin pcmax pcStack table = .ok (directives', table') →
      (∀ d ∈ directives, d.WellFormed t) → 0 ≤ pcmin → pcmin ≤ pcmax →
        Passed t endLabel ⟨pcmin, pcStack.map intervalFinalValue⟩ (finalValues table) directives'
            table'
          ∧ List.Forall₂ Relocated directives directives' ∧ ∀ d ∈ directives', d.WellFormed t := by
  induction directives with
  | nil =>
      intro pcmin pcmax pcStack table table' directives' h _ hmin hle
      obtain ⟨table₁, htable, h⟩ := bind_eq_ok.mp h
      cases h
      refine ⟨passed_end ?_ rfl htable, .nil, by simp⟩
      cases widening with
      | true => exact le_refl _
      | false => exact finalPad_le_end hmin hle (setLabelValue_eq_ok htable).2.1
  | cons d directives ih =>
      intro pcmin pcmax pcStack table table' directives' h hwf hmin hle
      obtain ⟨hd, hrest⟩ := List.forall_mem_cons.mp hwf
      cases d with
      | label name =>
          obtain ⟨table₁, htable, h⟩ := bind_eq_ok.mp h
          obtain ⟨⟨rem, table₂⟩, hrem, h⟩ := bind_eq_ok.mp h
          cases h
          obtain ⟨hpassed, hrelocated, hwf'⟩ := ih hrem hrest hmin hle
          refine ⟨hpassed.cons (setLabelValue_finalValues htable) (by simp),
            .cons (.same _) hrelocated, List.forall_mem_cons.mpr ⟨hd, hwf'⟩⟩
      | tick on =>
          obtain ⟨pcStack', hstack, h⟩ := bind_eq_ok.mp h
          obtain ⟨⟨rem, table₂⟩, hrem, h⟩ := bind_eq_ok.mp h
          cases h
          obtain ⟨hpassed, hrelocated, hwf'⟩ := ih hrem hrest hmin hle
          rw [tick_eq_ok hstack] at hpassed
          exact ⟨hpassed.cons rfl (by simp), .cons (.same _) hrelocated,
            List.forall_mem_cons.mpr ⟨hd, hwf'⟩⟩
      | fixedWidthGroup width fixed =>
          obtain ⟨⟨rem, table₂⟩, hrem, h⟩ := bind_eq_ok.mp h
          cases h
          obtain ⟨hpassed, hrelocated, hwf'⟩ := ih hrem hrest (by omega) (by omega)
          exact ⟨hpassed.cons rfl (by simp), .cons (.same _) hrelocated,
            List.forall_mem_cons.mpr ⟨hd, hwf'⟩⟩
      | variableWidthExpression e pc₀ selectors =>
          obtain ⟨pc, hpc, h⟩ := bind_eq_ok.mp h
          obtain ⟨⟨minl, maxl⟩, hlengths, h⟩ := bind_eq_ok.mp h
          obtain ⟨⟨rem, table₂⟩, hrem, h⟩ := bind_eq_ok.mp h
          cases h
          obtain ⟨-, hminl, hlengths, -⟩ := variableWidthLengths_eq_ok hlengths hd.2
          obtain ⟨hpassed, hrelocated, hwf'⟩ := ih hrem hrest (by omega) (by split <;> omega)
          rw [hminl] at hpassed
          refine ⟨hpassed.cons rfl ?_, .cons .field hrelocated,
            List.forall_mem_cons.mpr ⟨hd, hwf'⟩⟩
          intro e' pc' selectors' heq
          cases heq
          exact pcInterval_eq_ok hpc
      | padding remdr divsr paddingString =>
          obtain ⟨pcmin', hpcmin, h⟩ := bind_eq_ok.mp h
          obtain ⟨pcmax', hpcmax, h⟩ := bind_eq_ok.mp h
          obtain ⟨⟨rem, table₂⟩, hrem, h⟩ := bind_eq_ok.mp h
          cases h
          obtain ⟨-, rfl⟩ := afterPadding_eq_ok hpcmin
          obtain ⟨-, rfl⟩ := afterPadding_eq_ok hpcmax
          obtain ⟨hmin', hle'⟩ := afterPadding_mono hmin hle hd.1 hd.2
          obtain ⟨hpassed, hrelocated, hwf'⟩ := ih hrem hrest hmin' hle'
          exact ⟨hpassed.cons rfl (by simp), .cons (.same _) hrelocated,
            List.forall_mem_cons.mpr ⟨hd, hwf'⟩⟩

end MitScheme.Assembler
