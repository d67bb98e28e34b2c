import MitScheme.Sf.Integration
import MitScheme.Sf.CombinationsProof

/-!
# What integration does to captured environments

A variable is renamed in two places. One of them tests the block of the variable, the other does not.
-/

namespace MitScheme.Sf

open List

open SyntaxOutput (Symbol)
open Frames (Within modify_bind)
open Integration (constructor analyzed message nextAnswer markIntegrated)

/-! ## What a step may do -/

/-- What a run does to the variables that there are when it begins: those of unsafe blocks keep their names, except
the ones that are hackified, whose names are new. -/
structure Kept (s s' : State) : Prop where
  allocated : s.allocated ≤ s'.allocated
  generated : s.generated ≤ s'.generated
  block : ∀ v < s.allocated, s'.block v = s.block v
  hackified : ∃ new, s'.hackified = s.hackified ++ new ∧ ∀ v < s.allocated, (s.block v).safe = false →
    v ∉ new ∧ s'.name v = s.name v ∨
      v ∈ new ∧ ∃ name serial, s'.name v = .uninterned name serial ∧ s.generated ≤ serial

theorem Kept.of_eq {s s' : State} (hallocated : s'.allocated = s.allocated) (hgenerated : s'.generated = s.generated)
    (hblock : s'.block = s.block) (hhackified : s'.hackified = s.hackified) (hname : s'.name = s.name) : Kept s s' where
  allocated := Nat.le_of_eq hallocated.symm
  generated := Nat.le_of_eq hgenerated.symm
  block v _ := by rw [hblock]
  hackified := ⟨[], by rw [hhackified, append_nil], fun v _ _ => Or.inl ⟨not_mem_nil, by rw [hname]⟩⟩

theorem Kept.refl (s : State) : Kept s s := .of_eq rfl rfl rfl rfl rfl

theorem Kept.trans (s t u : State) (h : Kept s t) (h' : Kept t u) : Kept s u where
  allocated := Nat.le_trans h.allocated h'.allocated
  generated := Nat.le_trans h.generated h'.generated
  block v hv := (h'.block v (Nat.lt_of_lt_of_le hv h.allocated)).trans (h.block v hv)
  hackified := by
    obtain ⟨new, hnew, hfirst⟩ := h.hackified
    obtain ⟨new', hnew', hsecond⟩ := h'.hackified
    refine ⟨new ++ new', by rw [hnew', hnew, append_assoc], ?_⟩
    intro v hv hopenBlock
    have hv' := Nat.lt_of_lt_of_le hv h.allocated
    have hopenBlock' : (t.block v).safe = false := by rwa [h.block v hv]
    rcases hsecond v hv' hopenBlock' with ⟨hnot', hname'⟩ | ⟨hmem', name, serial, hname', hserial⟩
    · rcases hfirst v hv hopenBlock with ⟨hnot, hname⟩ | ⟨hmem, name, serial, hname, hserial⟩
      · left
        refine ⟨?_, hname'.trans hname⟩
        rw [mem_append]
        exact fun hn => hn.elim hnot hnot'
      · right
        exact ⟨mem_append_left _ hmem, name, serial, hname'.trans hname, hserial⟩
    · right
      exact ⟨mem_append_right _ hmem', name, serial, hname', Nat.le_trans h.generated hserial⟩

/-- The program renames no variable of an unsafe block, except those that it hackifies. -/
abbrev Keeps {α : Type} (m : Integration α) : Prop := Within Kept m

section

variable {α β : Type}

theorem Keeps.pure (a : α) : Keeps (pure a) := Within.pure Kept.refl a

theorem Keeps.throw (e : IntegrationError) : Keeps (throw e : Integration α) := Within.throw e

theorem Keeps.bind {m : Integration α} {f : α → Integration β} (hm : Keeps m) (hf : ∀ a, Keeps (f a)) :
    Keeps (m >>= f) :=
  Within.bind Kept.trans hm hf

theorem Keeps.get : Keeps get := Within.get Kept.refl

theorem Keeps.mapM {f : α → Integration β} (l : List α) (hf : ∀ a ∈ l, Keeps (f a)) : Keeps (l.mapM f) :=
  Within.mapM Kept.refl Kept.trans l hf

theorem keeps_constructor (x : Except Failure α) : Keeps (constructor x) := by
  cases x with
  | ok a => exact .pure a
  | error failure => exact .throw _

theorem keeps_analyzed (x : Option α) : Keeps (analyzed x) := keeps_constructor _

theorem keeps_message (text : String) (irritants : List Symbol) : Keeps (message text irritants : Integration α) :=
  .throw _

end

theorem keeps_nextAnswer : Keeps nextAnswer := by
  refine .bind .get fun s => ?_
  split
  · exact .pure _
  · refine .bind (Within.modify fun s => .of_eq rfl rfl rfl rfl rfl) fun _ => ?_
    exact .pure _

theorem keeps_markIntegrated (var : Variable) : Keeps (markIntegrated var) :=
  Within.modify fun _ => .of_eq rfl rfl rfl rfl rfl

theorem kept_rename {s : State} {var : Variable} (hsafe : (s.block var).safe = true) : Kept s (s.rename var) where
  allocated := Nat.le_refl _
  generated := Nat.le_succ _
  block _ _ := rfl
  hackified := by
    refine ⟨[], (append_nil _).symm, ?_⟩
    intro v hv hopenBlock
    left
    refine ⟨not_mem_nil, if_neg ?_⟩
    rintro rfl
    rw [hsafe] at hopenBlock
    cases hopenBlock

theorem kept_allocate (s : State) (block : Block) (old : List Variable) : Kept s (s.allocate block old) where
  allocated := Nat.le_add_right _ _
  generated := Nat.le_refl _
  block v hv := if_neg (Nat.not_le.mpr hv)
  hackified := by
    refine ⟨[], (append_nil _).symm, ?_⟩
    intro v hv hopenBlock
    left
    refine ⟨not_mem_nil, ?_⟩
    unfold State.allocate
    simp only [if_neg (Nat.not_le.mpr hv)]

theorem keeps_hackifyVariable (var : Variable) : Keeps (hackifyVariable var) := by
  refine Within.modify fun s => ?_
  refine ⟨Nat.le_refl _, Nat.le_succ _, fun _ _ => rfl, [var], rfl, ?_⟩
  intro v hv hopenBlock
  by_cases heq : v = var
  · right
    exact ⟨mem_singleton.mpr heq, _, _, if_pos heq, Nat.le_refl _⟩
  · left
    exact ⟨fun hmem => heq (mem_singleton.mp hmem), if_neg heq⟩

/-! ## Copying -/

theorem keeps_copyVariableFreeIntern (var : Variable) (name : Symbol) (blocks : List Block) :
    Keeps (copyVariableFreeIntern var name blocks) := by
  induction blocks with
  | nil => exact .throw _
  | cons block parents ih =>
      refine Within.of_get fun s a s' h => ?_
      cases hlookup : lookupName s (block :: parents) name with
      | none =>
          rw [hlookup] at h
          cases h
      | some var' =>
          simp only [hlookup] at h
          by_cases hsame : var' = var
          · rw [if_pos hsame] at h
            cases h
            exact Kept.refl _
          rw [if_neg hsame] at h
          by_cases hparents : parents.isEmpty = true
          · rw [if_pos hparents] at h
            cases h
          rw [if_neg hparents] at h
          -- The block of the variable is tested before it is renamed.
          by_cases hsafe : (s.block var').safe = true
          · rw [if_pos hsafe] at h
            exact Kept.trans _ _ _ (kept_rename hsafe) (ih _ a s' (modify_bind h))
          · rw [if_neg hsafe] at h
            cases h

theorem keeps_copyVariable (rootBlock : List Block) (environment : Copies) (var : Variable) :
    Keeps (copyVariable rootBlock environment var) := by
  unfold copyVariable
  split
  · exact .pure _
  · exact .bind .get fun s => keeps_copyVariableFreeIntern _ _ _

theorem keeps_renamer (environment : Copies) (var : Variable) : Keeps (renamer environment var) := by
  unfold renamer
  split
  · exact .pure _
  · exact .bind .get fun s => keeps_message _ _

theorem keeps_copyBlock (environment : Copies) (block : Block) : Keeps (copyBlock environment block) := by
  refine .bind .get fun s => ?_
  refine .bind (Within.modify fun t => kept_allocate t _ _) fun _ => ?_
  exact .pure _

theorem keeps_copyExpressions {rootBlock : List Block} {block : Block} {environment : Copies} {es : List Expr}
    (ih : ∀ e ∈ es, Keeps (copyExpression rootBlock block environment e)) :
    Keeps (copyExpressions rootBlock block environment es) := by
  induction es with
  | nil => exact .pure _
  | cons e es ih' =>
      refine .bind (ih e mem_cons_self) fun e' => ?_
      refine .bind (ih' fun e he => ih e (mem_cons_of_mem _ he)) fun es' => ?_
      exact .pure _

theorem keeps_copyActions {rootBlock : List Block} {block : Block} {environment : Copies} {actions : List Expr}
    (ih : ∀ e ∈ actions, Keeps (copyExpression rootBlock block environment e)) :
    Keeps (copyActions rootBlock block environment actions) := by
  induction actions with
  | nil => exact .pure _
  | cons action actions ih' =>
      have hactions := ih' fun e he => ih e (mem_cons_of_mem _ he)
      unfold copyActions
      split
      · rename_i heq
        cases heq
      · rename_i heq
        cases heq
        exact .bind hactions fun actions' => .pure _
      · rename_i heq
        cases heq
        refine .bind (ih _ mem_cons_self) fun action' => ?_
        exact .bind hactions fun actions' => .pure _

theorem keeps_copyExpression (rootBlock : List Block) (block : Block) (environment : Copies) (e : Expr) :
    Keeps (copyExpression rootBlock block environment e) := by
  induction e using Expr.induct generalizing rootBlock block environment with
  | access block' expression name ih =>
      refine .bind (keeps_copyBlock _ _) fun copied => ?_
      exact .bind (ih _ _ _) fun expression' => .pure _
  | assignment block' var value ih =>
      refine .bind (keeps_copyVariable _ _ _) fun var' => ?_
      exact .bind (ih _ _ _) fun value' => .pure _
  | combination block' operator operands hoperator hoperands =>
      refine .bind (hoperator _ _ _) fun operator' => ?_
      exact .bind (keeps_copyExpressions fun e he => hoperands e he _ _ _) fun operands' => .pure _
  | conditional predicate consequent alternative hpredicate hconsequent halternative =>
      refine .bind (hpredicate _ _ _) fun predicate' => ?_
      refine .bind (hconsequent _ _ _) fun consequent' => ?_
      exact .bind (halternative _ _ _) fun alternative' => .pure _
  | constant value => exact .pure _
  | declaration declarations expression ih
  | delay expression ih
  | quotation block' expression ih => exact .bind (ih _ _ _) fun expression' => .pure _
  | disjunction predicate alternative hpredicate halternative =>
      refine .bind (hpredicate _ _ _) fun predicate' => ?_
      exact .bind (halternative _ _ _) fun alternative' => .pure _
  | openBlock block' vars values actions hvalues hactions =>
      refine .bind (keeps_copyBlock _ _) fun copied => ?_
      refine .bind (.mapM _ fun var _ => keeps_renamer _ var) fun vars' => ?_
      refine .bind (keeps_copyExpressions fun e he => hvalues e he _ _ _) fun values' => ?_
      exact .bind (keeps_copyActions fun e he => hactions e he _ _ _) fun actions' => .pure _
  | procedure block' name required optional rest body ih =>
      refine .bind (keeps_copyBlock _ _) fun copied => ?_
      refine .bind (.mapM _ fun var _ => keeps_renamer _ var) fun required' => ?_
      refine .bind (.mapM _ fun var _ => keeps_renamer _ var) fun optional' => ?_
      refine .bind ?_ fun rest' => ?_
      · cases rest with
        | none => exact .pure _
        | some var => exact .bind (keeps_renamer _ var) fun var' => .pure _
      · exact .bind (ih _ _ _) fun body' => .pure _
  | reference block' var => exact .bind (keeps_copyVariable _ _ _) fun var' => .pure _
  | sequence actions ih =>
      refine .bind (keeps_copyExpressions fun e he => ih e he _ _ _) fun actions' => ?_
      exact keeps_constructor _
  | theEnvironment block' => exact keeps_message _ _
  | valueMarker => exact .throw _

theorem keeps_copyExpressionIntern (block : Block) (parents : List Block) (e : Expr) :
    Keeps (copyExpressionIntern block parents e) := keeps_copyExpression _ _ _ e

/-! ## Moving a body under other binders -/

section

variable {W : Pass}

theorem keeps_makeCombination (block : Block) (operator : Expr) (operands : List Expr) :
    Keeps (makeCombination W block operator operands) :=
  .bind .get fun _ => keeps_constructor _

theorem keeps_procedureWithBody (procedure body : Expr) : Keeps (procedureWithBody procedure body) := by
  refine .bind (Within.forM Kept.refl Kept.trans _ fun var _ => keeps_hackifyVariable var) fun _ => ?_
  exact .pure _

/-- What is known of the functions that look for a lambda expression in an operator. -/
structure CompoundKeeps (W : Pass) (fuel : Nat) : Prop where
  compound : ∀ operator operands, Keeps (compoundOperator W fuel operator operands)
  body : ∀ body encloser, (∀ e, Keeps (encloser e)) → Keeps (scanBody W fuel body encloser)
  operator : ∀ operator encloser, (∀ e, Keeps (encloser e)) → Keeps (scanOperator W fuel operator encloser)
  descend : ∀ block operands encloser operator, (∀ e, Keeps (encloser e)) →
    Keeps (descend W fuel block operands encloser operator)

theorem keeps_scanBody_succ {fuel : Nat} (ih : CompoundKeeps W fuel) (body : Expr)
    (encloser : Expr → Integration Expr) (hencloser : ∀ e, Keeps (encloser e)) :
    Keeps (scanBody W (fuel + 1) body encloser) := by
  cases body with
  | procedure block name required optional rest inner =>
      rw [scanBody]
      split
      · exact .pure _
      · refine .bind (hencloser inner) fun inner' => ?_
        exact Within.map Kept.refl Kept.trans some (keeps_procedureWithBody _ inner')
  | _ => exact ih.operator _ encloser hencloser

theorem keeps_scanOperator_succ {fuel : Nat} (ih : CompoundKeeps W fuel) (operator : Expr)
    (encloser : Expr → Integration Expr) (hencloser : ∀ e, Keeps (encloser e)) :
    Keeps (scanOperator W (fuel + 1) operator encloser) := by
  cases operator with
  | combination block operator' operands =>
      cases operator' with
      | procedure inner name required optional rest body => exact ih.descend block operands encloser _ hencloser
      | _ =>
          refine .bind (ih.compound _ operands) fun found => ?_
          cases found with
          | none => exact .pure _
          | some operator' => exact ih.descend block operands encloser operator' hencloser
  | declaration declarations expression => exact ih.body expression _ fun e => hencloser _
  | sequence actions =>
      rw [scanOperator]
      split
      · exact .throw _
      · exact ih.body _ _ fun e => .bind (keeps_constructor _) fun e' => hencloser e'
  | _ => exact .pure _

theorem keeps_descend_succ {fuel : Nat} (ih : CompoundKeeps W fuel) (block : Block) (operands : List Expr)
    (encloser : Expr → Integration Expr) (operator : Expr) (hencloser : ∀ e, Keeps (encloser e)) :
    Keeps (descend W (fuel + 1) block operands encloser operator) := by
  cases operator with
  | procedure inner name required optional rest body =>
      rw [descend]
      split
      · exact .pure _
      · refine ih.body body _ fun body' => ?_
        refine .bind (keeps_procedureWithBody _ body') fun operator' => ?_
        exact .bind (keeps_makeCombination block operator' operands) fun e => hencloser e
  | _ => exact .throw _

theorem keeps_compound (W : Pass) (fuel : Nat) : CompoundKeeps W fuel := by
  induction fuel with
  | zero =>
      refine ⟨fun _ _ => ?_, fun _ _ _ => ?_, fun _ _ _ => ?_, fun _ _ _ _ _ => ?_⟩
      · exact .throw _
      · exact .throw _
      · exact .throw _
      · exact .throw _
  | succ fuel ih =>
      refine ⟨fun operator operands => ?_, keeps_scanBody_succ ih, keeps_scanOperator_succ ih, keeps_descend_succ ih⟩
      refine .bind (keeps_analyzed _) fun effectFree => ?_
      split
      · exact ih.operator operator _ fun e => .pure e
      · exact .pure _

end

/-! ## Rewriting expressions -/

/-- What is known of the functions of the pass. -/
structure IntegrateKeeps (W : Pass) (fuel : Nat) : Prop where
  expression : ∀ e, Keeps (integrateExpression W fuel e)
  action : ∀ action, Keeps (integrateAction W fuel action)
  value : ∀ value, Keeps (forceValue W fuel value)
  name : ∀ block parents value delayed, Keeps (integrateName W fuel block parents value delayed)
  conditional : ∀ predicate consequent alternative, Keeps (integrateConditional W fuel predicate consequent alternative)
  disjunction : ∀ predicate alternative, Keeps (integrateDisjunction W fuel predicate alternative)
  procedure : ∀ procedure, Keeps (integrateProcedure W fuel procedure)
  combination : ∀ block operator operands, Keeps (integrateCombination W fuel block operator operands)
  default : ∀ block operator operands, Keeps (integrateCombinationDefault W fuel block operator operands)
  operator : ∀ operator, Keeps (integrateOperator W fuel operator)

section

variable {W : Pass} {fuel : Nat}

theorem keeps_integrateExpression_succ (ih : IntegrateKeeps W fuel) (e : Expr) :
    Keeps (integrateExpression W (fuel + 1) e) := by
  cases e with
  | access block environment name =>
      refine .bind (ih.expression environment) fun environment' => ?_
      split
      · refine .bind keeps_nextAnswer fun answer => ?_
        split
        · exact keeps_copyExpressionIntern _ _ _
        · exact .pure _
      · exact .pure _
  | assignment block var value => exact .bind (ih.expression value) fun value' => .pure _
  | combination block operator operands =>
      refine .bind (.mapM operands fun e _ => ih.expression e) fun operands' => ?_
      exact ih.combination block operator operands'
  | conditional predicate consequent alternative =>
      refine .bind (ih.expression predicate) fun predicate' => ?_
      exact ih.conditional predicate' consequent alternative
  | constant value | theEnvironment block => exact .pure _
  | declaration declarations expression => exact .bind (ih.expression expression) fun answer => .pure _
  | delay expression | quotation block expression => exact .bind (ih.expression expression) fun expression' => .pure _
  | disjunction predicate alternative =>
      refine .bind (ih.expression predicate) fun predicate' => ?_
      exact ih.disjunction predicate' alternative
  | openBlock block vars values actions =>
      refine .bind (.mapM values fun value _ => ih.value value) fun values' => ?_
      exact .bind (.mapM actions fun action _ => ih.action action) fun actions' => .pure _
  | procedure block name required optional rest body => exact ih.procedure _
  | reference block var =>
      refine .bind keeps_nextAnswer fun answer => ?_
      split
      · refine .bind (ih.name block _ _ _) fun new => ?_
        exact .bind (keeps_markIntegrated var) fun _ => .pure _
      · exact .pure _
  | sequence actions =>
      refine .bind (.mapM actions fun action _ => ih.action action) fun actions' => ?_
      exact keeps_constructor _
  | valueMarker => exact .throw _

theorem keeps_integrateConditional_succ (ih : IntegrateKeeps W fuel) (predicate consequent alternative : Expr) :
    Keeps (integrateConditional W (fuel + 1) predicate consequent alternative) := by
  unfold integrateConditional
  split
  · split
    · exact .throw _
    · refine .bind (ih.conditional _ consequent alternative) fun last => ?_
      exact keeps_constructor _
  · refine .bind (keeps_analyzed _) fun never => ?_
    split
    · exact .bind (ih.expression consequent) fun consequent' => keeps_constructor _
    · refine .bind (keeps_analyzed _) fun always => ?_
      split
      · exact .bind (ih.expression alternative) fun alternative' => keeps_constructor _
      · refine .bind (ih.expression consequent) fun consequent' => ?_
        exact .bind (ih.expression alternative) fun alternative' => .pure _

theorem keeps_integrateDisjunction_succ (ih : IntegrateKeeps W fuel) (predicate alternative : Expr) :
    Keeps (integrateDisjunction W (fuel + 1) predicate alternative) := by
  refine .bind (keeps_analyzed _) fun never => ?_
  split
  · exact .pure _
  · refine .bind (keeps_analyzed _) fun always => ?_
    split
    · exact .bind (ih.expression alternative) fun alternative' => keeps_constructor _
    · split
      · split
        · exact .throw _
        · exact .bind (ih.disjunction _ alternative) fun last => keeps_constructor _
      · exact .bind (ih.expression alternative) fun alternative' => .pure _

theorem keeps_elideDoubleNegative (operator : Expr) (operands : List Expr) :
    Keeps (elideDoubleNegative W operator operands) := by
  unfold elideDoubleNegative
  split
  · split
    · exact .bind (keeps_analyzed _) fun boolean => .pure _
    · exact .pure _
  · exact .pure _

theorem keeps_appliedOperands (p : Primitive) (operands : List Expr) : Keeps (appliedOperands p operands) := by
  unfold appliedOperands
  split
  · exact keeps_constructor _
  · exact .pure _

theorem keeps_integrateCombination_succ (ih : IntegrateKeeps W fuel) (block : Block) (operator : Expr)
    (operands : List Expr) : Keeps (integrateCombination W (fuel + 1) block operator operands) := by
  cases operator with
  | access block' environment name =>
      refine .bind (ih.expression environment) fun environment' => ?_
      split
      · refine .bind keeps_nextAnswer fun answer => ?_
        split
        · exact ih.expression _
        · refine .bind (keeps_copyExpressionIntern _ _ _) fun operator' => ?_
          exact ih.combination block operator' operands
        · exact keeps_makeCombination _ _ _
      · exact keeps_makeCombination _ _ _
  | assignment block' var value | delay expression | theEnvironment block' =>
      exact .bind (ih.expression _) fun operator' => keeps_makeCombination block operator' operands
  | constant value =>
      refine .bind (keeps_elideDoubleNegative _ _) fun elided => ?_
      split
      · exact .pure _
      · split
        · refine .bind (keeps_appliedOperands _ operands) fun applied => ?_
          split
          · exact ih.combination block _ _
          · exact .throw _
          · exact keeps_makeCombination _ _ _
        · exact ih.default block _ operands
  | openBlock block' vars values actions => exact keeps_message _ _
  | reference block' var =>
      refine .bind keeps_nextAnswer fun answer => ?_
      split
      · exact .bind (keeps_markIntegrated var) fun _ => ih.expression _
      · refine .bind (ih.name block' _ _ _) fun operator' => ?_
        exact .bind (keeps_markIntegrated var) fun _ => ih.combination block operator' operands
      · exact keeps_makeCombination _ _ _
  | valueMarker => exact .throw _
  | _ => exact ih.default block _ operands

theorem keeps_integrateCombinationDefault_succ (ih : IntegrateKeeps W fuel) (block : Block) (operator : Expr)
    (operands : List Expr) : Keeps (integrateCombinationDefault W (fuel + 1) block operator operands) := by
  refine .bind (ih.operator operator) fun operator' => ?_
  refine .bind ((keeps_compound W fuel).compound operator' operands) fun found => ?_
  split
  · refine .bind (ih.procedure _) fun procedure => ?_
    exact keeps_makeCombination block procedure operands
  · exact keeps_makeCombination _ _ _

theorem keeps_integrateOperator_succ (ih : IntegrateKeeps W fuel) (operator : Expr) :
    Keeps (integrateOperator W (fuel + 1) operator) := by
  cases operator with
  | procedure block name required optional rest body => exact ih.procedure _
  | _ =>
      refine .bind (ih.expression _) fun operator' => ?_
      split
      · exact ih.procedure _
      · exact .pure _

end

/-- **The pass renames no variable of an unsafe block, except by moving another body into its procedure.** -/
theorem keeps_integrate (W : Pass) (fuel : Nat) : IntegrateKeeps W fuel := by
  induction fuel with
  | zero =>
      constructor
      all_goals
        intros
        exact .throw _
  | succ fuel ih =>
      refine ⟨keeps_integrateExpression_succ ih, fun action => ?_, fun value => ?_, fun block parents value delayed => ?_,
        keeps_integrateConditional_succ ih, keeps_integrateDisjunction_succ ih, fun procedure => ?_,
        keeps_integrateCombination_succ ih, keeps_integrateCombinationDefault_succ ih, keeps_integrateOperator_succ ih⟩
      · unfold integrateAction
        split
        · exact .pure _
        · exact ih.expression _
      · refine .bind keeps_nextAnswer fun answer => ?_
        split
        · exact .pure _
        · exact ih.expression _
      · unfold integrateName
        split
        · exact .bind (ih.expression value) fun value' => keeps_copyExpressionIntern block parents value'
        · exact keeps_copyExpressionIntern block parents value
      · unfold integrateProcedure
        split
        · exact .bind (ih.expression _) fun body' => .pure _
        · exact .throw _

/-! ## Captured environments -/

/-- Nothing has been hackified yet, and the next symbol that is generated is new. -/
structure Begun (s : State) : Prop where
  hackified : s.hackified = []
  generated : ∀ v name serial, s.name v = .uninterned name serial → serial < s.generated

/-- The variables of unsafe blocks keep their names. -/
def NamesKept (s s' : State) : Prop := ∀ v < s.allocated, (s.block v).safe = false → s'.name v = s.name v

theorem makeCombination_unsafe {W : Pass} {s : State} {block inner : Block} {name : Symbol}
    {required optional : List Variable} {rest : Option Variable} {body : Expr} {operands : List Expr}
    (hopenBlock : inner.safe = false) :
    makeCombination W block (.procedure inner name required optional rest body) operands s =
      .ok (.combination block (.procedure inner name required optional rest body) operands, s) := by
  have hirreducible : reducibleOperator (W.settings s) (.procedure inner name required optional rest body) = false := by
    rw [reducibleOperator, hopenBlock]
    rfl
  have hmake : combinationMake (W.settings s) block (.procedure inner name required optional rest body) operands =
      .ok (.combination block (.procedure inner name required optional rest body) operands) := by
    rw [combinationMake, hirreducible]
    rfl
  change constructor (combinationMake (W.settings s) block _ operands) s = _
  rw [hmake]
  rfl

/-- Every switch is on, and there are no primitives. -/
def everySwitch : Pass := ⟨.on, .on, .on, .on, .on, fun _ _ => none⟩

/-- The variables `x`, `a`, `b` and `y`. The first two are of unsafe blocks. -/
def startingState : State where
  name v := .interned (["x", "a", "b", "y"].getD v "")
  block v := ⟨2 ≤ v, [], [v]⟩
  integrated _ := false
  allocated := 4
  generated := 0
  answers := []
  hackified := []

theorem begun_startingState : Begun startingState where
  hackified := rfl
  generated v name serial h := by cases h

/-- The combination of an operator with one number. -/
def callWith (operator : Expr) (n : Nat) : Expr := .combination ⟨false, [], []⟩ operator [.constant (.other n)]

/-- `(lambda (var) body)`, in a block that is safe or not. -/
def lambdaOf (safe : Bool) (var : Variable) (body : Expr) : Expr :=
  .procedure ⟨safe, [], [var]⟩ (.interned "lambda") [var] [] none body

/-- `((let ((b 1)) (lambda (y) b)) 5)` -/
def callThroughLet : Expr :=
  callWith (callWith (lambdaOf true 2 (lambdaOf true 3 (.reference ⟨true, [], [3]⟩ 2))) 1) 5

/-- `((lambda (b) b) 1)` -/
def callOfIdentity : Expr := callWith (lambdaOf true 2 (.reference ⟨true, [], [3]⟩ 2)) 1

/-- The state in which `b` and `y` have been hackified. -/
def hackifiedState : State :=
  { ({ startingState.rename 2 with hackified := [2] } : State).rename 3 with hackified := [2, 3] }

/-- `((let ((a 1)) (lambda (x) (the-environment))) 5)` -/
def captureThroughLet : Expr :=
  callWith (callWith (lambdaOf false 1 (lambdaOf false 0 (.theEnvironment ⟨false, [], [0]⟩))) 1) 5

end MitScheme.Sf
