import MitScheme.Compiler.BittopInitial

/-!
# Relaxation

What one turn of the loop of `relax!` does to the fields, and what holds when it finishes.
-/

namespace MitScheme.Assembler

variable {Name : Type} [DecidableEq Name] {t : Target}

theorem defineObjects_finalValues {objects : List Name} :
    ∀ {pcmin pcmax : Int} {table table' : SymbolTable Name Interval},
      defineObjects t objects pcmin pcmax table = .ok table' →
        objectAddresses t objects pcmin (finalValues table) = .ok (finalValues table') := by
  induction objects with
  | nil =>
      intro pcmin pcmax table table' h
      cases h
      rfl
  | cons label objects ih =>
      intro pcmin pcmax table table' h
      obtain ⟨table₁, hlabel, h⟩ := bind_eq_ok.mp h
      exact bind_eq_ok.mpr ⟨_, setLabelValue_finalValues hlabel, ih h⟩

variable {directives : List (Directive Name)}

theorem Passed.exactTable {q : Queues Name}
    {table table' : SymbolTable Name Interval}
    (h : Passed t q.endLabel (startingPlace t) [(q.startLabel, 0)] directives table)
    (hfinish : finishSymbolTable t q.endLabel q.objects q.equates table = .ok table') :
    Assembler.exactTable t q directives = .ok (finalValues table') := by
  obtain ⟨interval, hend, hle⟩ := h.ends
  obtain ⟨interval', hend', hfinish⟩ := bind_eq_ok.mp hfinish
  rw [hend] at hend'
  cases hend'
  obtain ⟨table₁, hobjects, hequates⟩ := bind_eq_ok.mp hfinish
  have hlow : (intervalValues interval).1 = intervalFinalValue interval := by
    unfold intervalValues
    rw [if_pos hle]
    rfl
  rw [hlow] at hobjects
  refine bind_eq_ok.mpr ⟨_, h.labels, ?_⟩
  refine bind_eq_ok.mpr ⟨_, value_finalValues hend, ?_⟩
  exact bind_eq_ok.mpr ⟨_, defineObjects_finalValues hobjects,
    defineEquates_finalValues hequates⟩

/-! ## Narrowing -/

theorem forall₂_getElem? {α β : Type} {R : α → β → Prop} {a : List α} {b : List β}
    (h : List.Forall₂ R a b) : ∀ {i : Nat} {x : α}, a[i]? = some x → ∃ y, b[i]? = some y ∧ R x y := by
  induction h with
  | nil =>
      intro i x hi
      simp at hi
  | cons hxy _ ih =>
      intro i x hi
      cases i with
      | zero =>
          cases hi
          exact ⟨_, rfl, hxy⟩
      | succ i => exact ih hi

omit [DecidableEq Name] in
theorem Narrows.trans {a b c : Directive Name} (h : Narrows a b) (h' : Narrows b c) :
    Narrows a c := by
  cases h with
  | same d hd => exact h'
  | field hne hsuffix =>
      cases h' with
      | same d hd => cases hd
      | field hne' hsuffix' => exact .field hne' (hsuffix'.trans hsuffix)
      | fixed hmem => exact .fixed (hsuffix.subset hmem)
  | fixed hmem =>
      cases h' with
      | same d hd => exact .fixed hmem

omit [DecidableEq Name] in
theorem Narrows.wellFormed {a b : Directive Name} (h : Narrows a b) (ha : a.WellFormed t) :
    b.WellFormed t := by
  cases h with
  | same d hd => exact ha
  | field hne hsuffix => exact ⟨hne, ha.2.sublist hsuffix.sublist⟩
  | fixed hmem => simp [variableWidthToFixed, Directive.WellFormed, Fixed.width]

omit [DecidableEq Name] in
theorem narrows_wellFormed {a b : List (Directive Name)} (h : List.Forall₂ Narrows a b)
    (ha : ∀ d ∈ a, d.WellFormed t) : ∀ d ∈ b, d.WellFormed t := by
  induction h with
  | nil => exact ha
  | cons hd _ ih =>
      obtain ⟨hhead, htail⟩ := List.forall_mem_cons.mp ha
      exact List.forall_mem_cons.mpr ⟨hd.wellFormed hhead, ih htail⟩

omit [DecidableEq Name] in
theorem narrows_trans {a b c : List (Directive Name)} (h : List.Forall₂ Narrows a b)
    (h' : List.Forall₂ Narrows b c) : List.Forall₂ Narrows a c := by
  induction h generalizing c with
  | nil =>
      cases h'
      exact .nil
  | cons hd _ ih =>
      cases h' with
      | cons hd' hrest => exact .cons (hd.trans hd') (ih hrest)

omit [DecidableEq Name] in
theorem relocated_narrows {a b : List (Directive Name)} (h : List.Forall₂ Relocated a b)
    (ha : ∀ d ∈ a, d.WellFormed t) : List.Forall₂ Narrows a b := by
  induction h with
  | nil => exact .nil
  | cons hd _ ih =>
      obtain ⟨hhead, htail⟩ := List.forall_mem_cons.mp ha
      exact .cons (hd.narrows hhead) (ih htail)

/-! ## Fields in one pass -/

omit [DecidableEq Name] in
theorem Selector.inRange_of_between {sel : Selector} {minval maxval value : Int}
    (hlow : sel.aboveLow minval = true) (hhigh : sel.belowHigh maxval = true)
    (hmin : minval ≤ value) (hmax : value ≤ maxval) : sel.InRange value := by
  unfold Selector.aboveLow at hlow
  unfold Selector.belowHigh at hhigh
  constructor
  · intro low hmem
    rw [Option.mem_def] at hmem
    simp only [hmem, Option.all_some, decide_eq_true_eq] at hlow
    omega
  · intro high hmem
    rw [Option.mem_def] at hmem
    simp only [hmem, Option.all_some, decide_eq_true_eq] at hhigh
    omega

variable {widening : Bool} {count : Nat} {d d' : Directive Name} {table : SymbolTable Name Interval}

variable {e : Expression Name}

theorem processVariable_eq_ok {pc : Interval}
    {minval maxval : Int} {selectors : List Selector} :
    ∀ {droppedSome determined filtered : Bool} {d : Directive Name},
      processVariable e pc widening minval maxval selectors droppedSome
        = .ok (d, determined, filtered) →
      ∃ dropped sel rest, selectors = dropped ++ sel :: rest
        ∧ (filtered = false → dropped = [] ∧ droppedSome = false)
        ∧ (determined = true → sel.aboveLow minval = true ∧ sel.belowHigh maxval = true
          ∧ d = if widening then .variableWidthExpression e pc (sel :: rest)
            else variableWidthToFixed e sel)
        ∧ (determined = false → d = .variableWidthExpression e pc (sel :: rest)) := by
  induction selectors with
  | nil =>
      intro droppedSome determined filtered d h
      cases h
  | cons sel selectors ih =>
      intro droppedSome determined filtered d h
      rw [processVariable] at h
      split at h
      · rename_i hin
        rw [Bool.and_eq_true] at hin
        cases h
        exact ⟨[], sel, selectors, rfl, fun h => ⟨rfl, h⟩, fun _ => ⟨hin.1, hin.2, rfl⟩, by simp⟩
      · split at h
        · cases h
          exact ⟨[], sel, selectors, rfl, fun h => ⟨rfl, h⟩, by simp, fun _ => rfl⟩
        · -- the selector is dropped
          obtain ⟨dropped, sel', rest, hsplit, hfiltered, hdet, hundet⟩ := ih h
          refine ⟨sel :: dropped, sel', rest, by rw [hsplit]; rfl, fun hf => ?_, hdet, hundet⟩
          cases (hfiltered hf).2

/-- What `phase-2` makes of a directive, when it reports `modified` and `count`. -/
def Processed (widening : Bool) (table : SymbolTable Name Interval) (modified : Bool)
    (count : Nat) : Directive Name → Directive Name → Prop
  | .variableWidthExpression e pc selectors, d' =>
      ∃ interval determined filtered, evaluate table (some pc) e = .ok interval
        ∧ processVariable e pc widening (intervalValues interval).1 (intervalValues interval).2
          selectors false = .ok (d', determined, filtered)
        ∧ (modified = false → filtered = false) ∧ (count = 0 → determined = true)
  | d, d' => d' = d

theorem Processed.mono {modified modified' : Bool} {count' : Nat}
    (h : Processed widening table modified count d d')
    (hmodified : modified' = false → modified = false) (hcount : count' = 0 → count = 0) :
    Processed widening table modified' count' d d' := by
  cases d with
  | variableWidthExpression e pc selectors =>
      obtain ⟨interval, determined, filtered, heval, hprocess, hm, hc⟩ := h
      exact ⟨interval, determined, filtered, heval, hprocess, fun h => hm (hmodified h),
        fun h => hc (hcount h)⟩
  | _ => exact h

theorem phase2_processed :
    ∀ {directives' : List (Directive Name)} {modified : Bool} {count : Nat},
      phase2 widening table directives = .ok (directives', modified, count) →
        List.Forall₂ (Processed widening table modified count) directives directives' := by
  induction directives with
  | nil =>
      intro directives' modified count h
      cases h
      exact .nil
  | cons d directives ih =>
      intro directives' modified count h
      cases d with
      | variableWidthExpression e pc selectors =>
          obtain ⟨⟨rem, modified₁, count₁⟩, hrem, h⟩ := bind_eq_ok.mp h
          obtain ⟨interval, heval, h⟩ := bind_eq_ok.mp h
          obtain ⟨⟨d', determined, filtered⟩, hprocess, h⟩ := bind_eq_ok.mp h
          cases h
          refine .cons ⟨interval, determined, filtered, heval, hprocess, ?_, ?_⟩
            ((ih hrem).imp fun _ _ h => h.mono ?_ ?_)
          · intro h
            exact (Bool.or_eq_false_iff.mp h).2
          · intro h
            cases determined with
            | true => rfl
            | false => simp at h
          · intro h
            exact (Bool.or_eq_false_iff.mp h).1
          · intro h
            cases determined with
            | true => exact h
            | false => simp at h
      | _ =>
          obtain ⟨⟨rem, modified₁, count₁⟩, hrem, h⟩ := bind_eq_ok.mp h
          cases h
          exact .cons rfl (ih hrem)

theorem Processed.narrows {modified : Bool}
    (h : Processed widening table modified count d d') : Narrows d d' := by
  cases d with
  | variableWidthExpression e pc selectors =>
      obtain ⟨interval, determined, filtered, -, hprocess, -, -⟩ := h
      obtain ⟨dropped, sel, rest, rfl, -, hdet, hundet⟩ := processVariable_eq_ok hprocess
      have hfield : Narrows (.variableWidthExpression e pc (dropped ++ sel :: rest))
          (.variableWidthExpression e pc (sel :: rest)) :=
        .field (by simp) (List.suffix_append dropped (sel :: rest))
      cases determined with
      | false =>
          rw [hundet rfl]
          exact hfield
      | true =>
          rw [(hdet rfl).2.2]
          cases widening with
          | true => exact hfield
          | false => exact .fixed (by simp)
  | _ =>
      cases h
      exact .same _ rfl

/-- Two directives that take the same room and define the same label. -/
def SameLayout (t : Target) (d d' : Directive Name) : Prop :=
  (∀ p, d'.advance t p = d.advance t p)
    ∧ ∀ p values, d'.defineLabel t p values = d.defineLabel t p values

theorem Processed.sameLayout (h : Processed widening table false count d d') :
    SameLayout t d d' := by
  cases d with
  | variableWidthExpression e pc selectors =>
      obtain ⟨interval, determined, filtered, -, hprocess, hfiltered, -⟩ := h
      obtain ⟨dropped, sel, rest, rfl, hnone, hdet, hundet⟩ := processVariable_eq_ok hprocess
      rw [(hnone (hfiltered rfl)).1]
      cases determined with
      | false =>
          rw [hundet rfl]
          exact ⟨fun _ => rfl, fun _ _ => rfl⟩
      | true =>
          rw [(hdet rfl).2.2]
          cases widening <;> exact ⟨fun _ => rfl, fun _ _ => rfl⟩
  | _ =>
      cases h
      exact ⟨fun _ => rfl, fun _ _ => rfl⟩

section

variable {directives directives' : List (Directive Name)}
  (h : List.Forall₂ (SameLayout t) directives directives')

include h

theorem labelAddresses_sameLayout (endLabel : Name) : ∀ (p : Place)
    (values : SymbolTable Name Int), labelAddresses t endLabel p values directives'
      = labelAddresses t endLabel p values directives := by
  induction h with
  | nil => exact fun _ _ => rfl
  | cons hd _ ih =>
      intro p values
      rw [labelAddresses_cons, labelAddresses_cons, hd.1, hd.2]
      exact congrArg _ (funext fun values => ih _ values)

theorem placeAfter_sameLayout : ∀ (i : Nat) (p : Place),
    placeAfter t p (directives'.take i) = placeAfter t p (directives.take i) := by
  induction h with
  | nil => exact fun _ _ => rfl
  | cons hd _ ih =>
      intro i p
      cases i with
      | zero => rfl
      | succ i =>
          change placeAfter t (Directive.advance t p _) _ = placeAfter t (Directive.advance t p _) _
          rw [hd.1, ih]

theorem fieldValue_sameLayout (q : Queues Name) (i : Nat) (e : Expression Name) :
    fieldValue t q directives' i e = fieldValue t q directives i e := by
  unfold fieldValue Assembler.exactTable placeAt
  rw [labelAddresses_sameLayout h, placeAfter_sameLayout h]

end

/-! ## Turns -/

/-- A pass whose table and directives are as they should be. -/
structure Right (t : Target) (q : Queues Name) (p : Pass Name) : Prop where
  passed : Passed t q.endLabel (startingPlace t) [(q.startLabel, 0)] p.directives p.table
  wellFormed : ∀ d ∈ p.directives, d.WellFormed t

/-- The field is encoded with one of its selectors, whose range has the value of the field. -/
def Settled (t : Target) (q : Queues Name) (directives : List (Directive Name)) (i : Nat)
    (e : Expression Name) (selectors : List Selector) : Prop :=
  ∃ sel ∈ selectors, ∃ d, directives[i]? = some d ∧ EncodedWith e sel d
    ∧ ∀ value, fieldValue t q directives i e = .ok value → sel.InRange value

variable {q : Queues Name} {p : Pass Name} {table : SymbolTable Name Interval}

theorem fieldValue_eq
    {values : SymbolTable Name Int} {i : Nat}
    (h : Assembler.exactTable t q directives = .ok values) :
    fieldValue t q directives i e
      = evaluate values (some ((placeAt t directives i).pcValue t)) e := by
  unfold fieldValue
  rw [h]
  rfl

theorem Right.between (h : Right t q p)
    (hfinish : finishSymbolTable t q.endLabel q.objects q.equates p.table = .ok table)
    {i : Nat} {pc : Interval} {selectors : List Selector}
    {interval : Interval} (hi : p.directives[i]? = some (.variableWidthExpression e pc selectors))
    (heval : evaluate table (some pc) e = .ok interval) {value : Int}
    (hvalue : fieldValue t q p.directives i e = .ok value) :
    (intervalValues interval).1 ≤ value ∧ value ≤ (intervalValues interval).2 := by
  rw [fieldValue_eq (h.passed.exactTable hfinish)] at hvalue
  have hfinal := evaluate_finalValues heval
  rw [Option.map_some, h.passed.pcs i e pc selectors hi] at hfinal
  have heq := hvalue.symm.trans hfinal
  cases heq
  exact finalValue_between interval

theorem turn_finished (h : Right t q p) {count : Nat}
    (hturn : turn t q p = .ok (.finished directives table count)) :
    Assembler.exactTable t q directives = .ok (finalValues table)
      ∧ List.Forall₂ Narrows p.directives directives
      ∧ ∀ i e pc selectors,
        p.directives[i]? = some (.variableWidthExpression e pc selectors) →
          Settled t q directives i e selectors := by
  obtain ⟨table₁, hfinish, hturn⟩ := bind_eq_ok.mp hturn
  have hexact := h.passed.exactTable hfinish
  split at hturn
  · obtain ⟨⟨directives₁, modified, numberOfVars⟩, hphase2, hturn⟩ := bind_eq_ok.mp hturn
    dsimp only at hturn
    have hprocessed := phase2_processed hphase2
    split at hturn
    · obtain ⟨_, -, hturn⟩ := bind_eq_ok.mp hturn
      cases hturn
    · rename_i hmodified
      rw [Bool.not_eq_true] at hmodified
      subst hmodified
      split at hturn
      · rename_i hcount
        subst hcount
        cases hturn
        have hsame : List.Forall₂ (SameLayout t) p.directives directives :=
          hprocessed.imp fun _ _ h => h.sameLayout
        refine ⟨?_, hprocessed.imp fun _ _ h => h.narrows, ?_⟩
        · unfold Assembler.exactTable at hexact ⊢
          rwa [labelAddresses_sameLayout hsame]
        · intro i e pc selectors hi
          obtain ⟨d', hd', interval, determined, filtered, heval, hprocess, hfiltered, hdet⟩ :=
            forall₂_getElem? hprocessed hi
          obtain ⟨dropped, sel, rest, rfl, -, hstops, -⟩ := processVariable_eq_ok hprocess
          obtain ⟨hlow, hhigh, rfl⟩ := hstops (hdet rfl)
          refine ⟨sel, by simp, _, hd', ?_, fun value hvalue => ?_⟩
          · cases p.widening with
            | true => exact .inr ⟨pc, rest, rfl⟩
            | false => exact .inl rfl
          · rw [fieldValue_sameLayout hsame] at hvalue
            obtain ⟨hmin, hmax⟩ := h.between hfinish hi heval hvalue
            exact Selector.inRange_of_between hlow hhigh hmin hmax
      · obtain ⟨_, -, hturn⟩ := bind_eq_ok.mp hturn
        cases hturn
  · rename_i hnone
    cases hturn
    refine ⟨hexact, ?_, ?_⟩
    · refine List.forall₂_same.mpr fun d hd => .same d ?_
      simpa using fun hvar => hnone (List.any_eq_true.mpr ⟨d, hd, hvar⟩)
    · intro i e pc selectors hi
      exact absurd (List.any_eq_true.mpr ⟨_, List.mem_of_getElem? hi, rfl⟩) hnone

/-- The pass fixes the field, by an interval that is in the range of the selector. -/
def FixedBy (t : Target) (q : Queues Name) (p : Pass Name) (e : Expression Name) (pc : Interval)
    (selectors : List Selector) (sel : Selector) : Prop :=
  ∃ table interval filtered,
    finishSymbolTable t q.endLabel q.objects q.equates p.table = .ok table
      ∧ evaluate table (some pc) e = .ok interval
      ∧ processVariable e pc p.widening (intervalValues interval).1 (intervalValues interval).2
        selectors false = .ok (variableWidthToFixed e sel, true, filtered)
      ∧ sel.aboveLow (intervalValues interval).1 = true
      ∧ sel.belowHigh (intervalValues interval).2 = true

theorem turn_continues {p' : Pass Name} (h : Right t q p)
    (hturn : turn t q p = .ok (.continues p')) :
    Right t q p' ∧ List.Forall₂ Narrows p.directives p'.directives
      ∧ ∀ (i : Nat) (e : Expression Name) (pc : Interval) (selectors : List Selector),
        p.directives[i]? = some (.variableWidthExpression e pc selectors) →
          (∃ pc' selectors', p'.directives[i]? = some (.variableWidthExpression e pc' selectors')
              ∧ selectors' <:+ selectors) ∨
            p.widening = false ∧ ∃ sel ∈ selectors, FixedBy t q p e pc selectors sel
              ∧ p'.directives[i]? = some (variableWidthToFixed e sel) := by
  obtain ⟨table, hfinish, hturn⟩ := bind_eq_ok.mp hturn
  split at hturn
  · obtain ⟨⟨directives₁, modified, numberOfVars⟩, hphase2, hturn⟩ := bind_eq_ok.mp hturn
    have hprocessed := phase2_processed hphase2
    have hnarrows₁ : List.Forall₂ Narrows p.directives directives₁ :=
      hprocessed.imp fun _ _ h => h.narrows
    have hcontinue : ∃ widening, continueRelaxing t q widening directives₁ p.count
        = .ok (.continues p') := by
      dsimp only at hturn
      split at hturn
      · exact ⟨false, hturn⟩
      · split at hturn
        · cases hturn
        · exact ⟨!p.widening, hturn⟩
    obtain ⟨widening, hcontinue⟩ := hcontinue
    obtain ⟨⟨directives₂, table₂⟩, hphase1, hcontinue⟩ := bind_eq_ok.mp hcontinue
    cases hcontinue
    have hstart : (0 : Int) ≤ startingPc t := by
      unfold startingPc
      omega
    have hwf₁ := narrows_wellFormed hnarrows₁ h.wellFormed
    obtain ⟨hpassed, hrelocated, hwf⟩ := phase1_passed hphase1 hwf₁ hstart (le_refl _)
    refine ⟨⟨hpassed, hwf⟩, narrows_trans hnarrows₁ (relocated_narrows hrelocated hwf₁), ?_⟩
    intro i e pc selectors hi
    obtain ⟨d₁, hd₁, interval, determined, filtered, heval, hprocess, -, -⟩ :=
      forall₂_getElem? hprocessed hi
    obtain ⟨d₂, hd₂, hrelocated⟩ := forall₂_getElem? hrelocated hd₁
    obtain ⟨dropped, sel, rest, rfl, -, hdet, hundet⟩ := processVariable_eq_ok hprocess
    -- a field that stays open has the rest of its selectors, wherever it now is
    have hopen : d₁ = .variableWidthExpression e pc (sel :: rest) →
        ∃ pc' selectors', directives₂[i]? = some (.variableWidthExpression e pc' selectors')
          ∧ selectors' <:+ dropped ++ sel :: rest := by
      intro heq
      subst heq
      cases hrelocated with
      | same => exact ⟨pc, _, hd₂, List.suffix_append dropped (sel :: rest)⟩
      | field => exact ⟨_, _, hd₂, List.suffix_append dropped (sel :: rest)⟩
    cases determined with
    | false => exact .inl (hopen (hundet rfl))
    | true =>
        obtain ⟨hlow, hhigh, heq⟩ := hdet rfl
        cases hwidening : p.widening with
        | true =>
            rw [hwidening] at heq
            exact .inl (hopen heq)
        | false =>
            rw [hwidening] at heq
            subst heq
            cases hrelocated
            refine .inr ⟨rfl, sel, by simp, ?_, hd₂⟩
            exact ⟨table, interval, filtered, hfinish, heval, hprocess, hlow, hhigh⟩
  · cases hturn

/-- The loop of `relax!` goes on from one pass to another. -/
def Continues (t : Target) (q : Queues Name) (p p' : Pass Name) : Prop :=
  turn t q p = .ok (.continues p')

/-- In every pass that `relax!` comes to, other than the last and those that widen, the intervals
that fix a field cover the layouts that are open. -/
def CoversAll (t : Target) (q : Queues Name) (start : Pass Name) : Prop :=
  ∀ p p', Relation.ReflTransGen (Continues t q) start p → Continues t q p p' →
    p.widening = false → Covers t q p

theorem relax_spec {count : Nat} :
    ∀ {fuel : Nat} {p : Pass Name}, Right t q p →
      relax t q fuel p = .ok (some (directives, table, count)) →
      Assembler.exactTable t q directives = .ok (finalValues table)
        ∧ List.Forall₂ Narrows p.directives directives
        ∧ (CoversAll t q p → ∀ i e pc selectors,
          p.directives[i]? = some (.variableWidthExpression e pc selectors) →
            Settled t q directives i e selectors) := by
  intro fuel
  induction fuel with
  | zero =>
      intro p _ h
      cases h
  | succ fuel ih =>
      intro p hright h
      obtain ⟨result, hturn, h⟩ := bind_eq_ok.mp h
      cases result with
      | finished directives' table' count' =>
          cases h
          obtain ⟨hexact, hnarrows, hsettled⟩ := turn_finished hright hturn
          exact ⟨hexact, hnarrows, fun _ => hsettled⟩
      | continues p' =>
          obtain ⟨hright', hnarrows, hfields⟩ := turn_continues hright hturn
          obtain ⟨hexact, hnarrows', hrest⟩ := ih hright' h
          refine ⟨hexact, narrows_trans hnarrows hnarrows', fun hcovers => ?_⟩
          intro i e pc selectors hi
          rcases hfields i e pc selectors hi with ⟨pc', selectors', hi', hsuffix⟩ | hfixed
          · -- the field is open in the next pass
            have hcovers' : CoversAll t q p' := fun p₁ p₂ hreach =>
              hcovers p₁ p₂ (Relation.ReflTransGen.head hturn hreach)
            obtain ⟨sel, hmem, hsel⟩ := hrest hcovers' i e pc' selectors' hi'
            exact ⟨sel, hsuffix.subset hmem, hsel⟩
          · -- the field is fixed, and what follows only narrows the directives
            obtain ⟨hwidening, sel, hmem, hby, hi'⟩ := hfixed
            obtain ⟨table₁, interval, filtered, hfinish, heval, hprocess, hlow, hhigh⟩ := hby
            obtain ⟨d, hd, hkept⟩ := forall₂_getElem? hnarrows' hi'
            cases hkept
            refine ⟨sel, hmem, _, hd, .inl rfl, fun value hvalue => ?_⟩
            obtain ⟨hmin, hmax⟩ := hcovers p p' .refl hturn hwidening table₁ hfinish i e pc
              selectors interval hi heval _ filtered hprocess directives
              (narrows_trans hnarrows hnarrows') value hvalue
            exact Selector.inRange_of_between hlow hhigh hmin hmax

end MitScheme.Assembler
