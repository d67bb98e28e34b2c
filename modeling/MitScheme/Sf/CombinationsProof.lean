import MitScheme.Sf.Combinations
import MitScheme.Sf.Transform

/-!
# When a combination can be made

SF folds a combination by applying the primitive, and deletes arguments by walking along the parameters and the
operands. Neither is tried out first, so what the program would do when it runs can happen to SF.
-/

namespace MitScheme.Sf

open List

open SyntaxOutput (Symbol)

/-! ## Sequences -/

mutual

/-- The actions of an expression, those of the sequences in it included. -/
def Expr.actions : Expr → List Expr
  | .sequence actions => actionsOf actions
  | action => [action]

/-- The actions of several expressions. -/
def actionsOf : List Expr → List Expr
  | [] => []
  | expression :: expressions => expression.actions ++ actionsOf expressions

end

@[simp] theorem answered_some {α : Type} (a : α) : answered (some a) = .ok a := rfl

@[simp] theorem answered_none {α : Type} : answered (none : Option α) = .error .analysis := rfl

theorem actionsOf_append (es es' : List Expr) : actionsOf (es ++ es') = actionsOf es ++ actionsOf es' := by
  induction es with
  | nil => rfl
  | cons e es ih => rw [cons_append, actionsOf, actionsOf, ih, append_assoc]

theorem collectActions_eq_of {actions : List Expr}
    (ih : ∀ action ∈ actions, ∀ collected, collectAction collected action = action.actions.reverse ++ collected)
    (collected : List Expr) : collectActions collected actions = (actionsOf actions).reverse ++ collected := by
  induction actions generalizing collected with
  | nil => rfl
  | cons action actions ih' =>
      rw [collectActions, ih action mem_cons_self, ih' fun a ha => ih a (mem_cons_of_mem _ ha), actionsOf,
        reverse_append, append_assoc]

theorem collectAction_eq (e : Expr) :
    ∀ collected, collectAction collected e = e.actions.reverse ++ collected := by
  induction e using Expr.induct with
  | sequence actions ih =>
      intro collected
      rw [collectAction, Expr.actions, collectActions_eq_of ih]
  | _ =>
      intro collected
      rfl

theorem collectActions_eq (actions : List Expr) : collectActions [] actions = (actionsOf actions).reverse := by
  rw [collectActions_eq_of (fun action _ => collectAction_eq action), append_nil]

theorem filterActions_ok_iff (actions filtered : List Expr) :
    (∃ filtered', filterActions filtered actions = .ok filtered') ↔
      ∀ action ∈ actions, (effectFree action).isSome := by
  induction actions generalizing filtered with
  | nil => simp [filterActions]
  | cons action actions ih =>
      rw [forall_mem_cons, filterActions]
      cases h : effectFree action with
      | none =>
          simp only [answered_none, Option.isSome_none, Bool.false_eq_true, false_and, iff_false]
          rintro ⟨filtered', hfiltered⟩
          cases hfiltered
      | some b =>
          simp only [answered_some, Option.isSome_some, true_and]
          cases b with
          | false | true => exact ih _

theorem filterActions_ne_nil {actions filtered filtered' : List Expr} (h : filterActions filtered actions = .ok filtered')
    (hne : filtered ≠ [] ∨ actions ≠ []) : filtered' ≠ [] := by
  induction actions generalizing filtered with
  | nil =>
      cases h
      exact hne.resolve_right fun hn => hn rfl
  | cons action actions ih =>
      rw [filterActions] at h
      cases heffect : effectFree action with
      | none =>
          rw [heffect] at h
          cases h
      | some b =>
          rw [heffect] at h
          cases b with
          | false => exact ih h (Or.inl (cons_ne_nil _ _))
          | true =>
              refine ih h (Or.inl ?_)
              split
              · exact cons_ne_nil _ _
              · rename_i hempty
                exact fun hn => hempty (List.isEmpty_iff.mpr hn)

theorem sequenceMake_ok_iff {actions : List Expr} (hne : actionsOf actions ≠ []) :
    (∃ e, sequenceMake actions = .ok e) ↔ ∀ action ∈ actionsOf actions, (effectFree action).isSome := by
  have hfilter := filterActions_ok_iff (actionsOf actions).reverse []
  rw [sequenceMake, collectActions_eq]
  simp only [mem_reverse] at hfilter
  rw [← hfilter]
  constructor
  · rintro ⟨e, he⟩
    cases h : filterActions [] (actionsOf actions).reverse with
    | error failure =>
        rw [h] at he
        cases he
    | ok filtered => exact ⟨filtered, rfl⟩
  · rintro ⟨filtered, h⟩
    have hfiltered := filterActions_ne_nil h (Or.inr (reverse_ne_nil_iff.mpr hne))
    rw [h]
    cases filtered with
    | nil => exact absurd rfl hfiltered
    | cons first others =>
        cases others with
        | nil => exact ⟨first, rfl⟩
        | cons second others => exact ⟨.sequence (first :: second :: others), rfl⟩

theorem actions_ne_nil (e : Expr) (he : wellFormed e = true) : e.actions ≠ [] := by
  induction e using Expr.induct with
  | sequence actions ih =>
      rw [wellFormed, Bool.and_eq_true, everyWellFormed_iff] at he
      obtain ⟨action, actions', rfl⟩ : ∃ action actions', actions = action :: actions' := by
        cases actions with
        | nil => exact absurd he.1 (by decide)
        | cons action actions => exact ⟨action, actions, rfl⟩
      intro h
      exact ih action mem_cons_self (he.2 action mem_cons_self) (append_eq_nil_iff.mp h).1
  | _ => exact cons_ne_nil _ _

/-! ## Argument deletion -/

section

variable {S : Settings} {rest : Option Variable} {free : List Variable}

/-- The parameters that are kept. -/
def keptParameters (free parameters : List Variable) : List Variable := parameters.filter (· ∈ free)

/-- The operands of the parameters that are kept. -/
def keptOperands (free parameters : List Variable) (operands : List Expr) : List Expr :=
  ((parameters.zip operands).filter fun x => x.1 ∈ free).map Prod.snd

/-- The operands that are evaluated for their effects only. -/
def discardedOperands (S : Settings) (free parameters : List Variable) (operands : List Expr) : List Expr :=
  ((parameters.zip operands).filter fun x => x.1 ∉ free ∧ S.integrated x.1 = false).map Prod.snd

/-- The operands fit the parameters: each has its own, and the rest parameter takes the others. -/
def Fits (parameters : List Variable) (rest : Option Variable) (operands : List Expr) : Prop :=
  parameters.length ≤ operands.length ∧ (rest = none → operands.length = parameters.length)

variable {parameters : List Variable}

theorem fits_cons {parameter : Variable} {operand : Expr} {operands : List Expr} :
    Fits (parameter :: parameters) rest (operand :: operands) ↔ Fits parameters rest operands := by
  simp [Fits]

theorem partitionLoop_eq (free : List Variable) {operands : List Expr}
    (hrest : rest.all S.integrated = true) (hfits : Fits parameters rest operands) (required : List Variable) (referenced unreferenced : List Expr) :
    partitionLoop S rest free parameters operands required referenced unreferenced =
      .ok (required.reverse ++ keptParameters free parameters,
        referenced.reverse ++ keptOperands free parameters operands,
        (discardedOperands S free parameters operands).reverse ++ unreferenced) := by
  induction parameters generalizing operands required referenced unreferenced with
  | nil =>
      rw [partitionLoop, if_pos, if_pos]
      · simp [keptParameters, keptOperands, discardedOperands]
      · cases rest with
        | none => simp [eq_nil_of_length_eq_zero (hfits.2 rfl)]
        | some var => simpa using Or.inr hrest
      · cases rest with
        | none => simp [eq_nil_of_length_eq_zero (hfits.2 rfl)]
        | some var => rfl
  | cons parameter parameters ih =>
      cases operands with
      | nil => exact absurd hfits.1 (Nat.not_succ_le_zero _)
      | cons operand operands =>
          have hfits := fits_cons.mp hfits
          rw [partitionLoop]
          split
          · rename_i hmem
            rw [ih hfits]
            simp [keptParameters, keptOperands, discardedOperands, hmem]
          · rename_i hmem
            split
            · rename_i hintegrated
              rw [ih hfits]
              simp [keptParameters, keptOperands, discardedOperands, hmem, hintegrated]
            · rename_i hintegrated
              rw [ih hfits]
              simp [keptParameters, keptOperands, discardedOperands, hmem, hintegrated]

theorem partitionLoop_error {operands : List Expr}
    (hfits : ¬ Fits parameters rest operands) (required : List Variable) (referenced unreferenced : List Expr)
    (result : List Variable × List Expr × List Expr) :
    partitionLoop S rest free parameters operands required referenced unreferenced ≠ .ok result := by
  induction parameters generalizing operands required referenced unreferenced with
  | nil =>
      rw [partitionLoop, if_neg]
      · intro h
        cases h
      · intro h
        refine hfits ⟨Nat.zero_le _, ?_⟩
        rintro rfl
        rw [Option.isSome_none, Bool.false_or, List.isEmpty_iff] at h
        rw [h]
        rfl
  | cons parameter parameters ih =>
      cases operands with
      | nil =>
          intro h
          cases h
      | cons operand operands =>
          have hfits := mt fits_cons.mpr hfits
          rw [partitionLoop]
          split
          · exact ih hfits _ _ _
          · split
            · exact ih hfits _ _ _
            · exact ih hfits _ _ _

end

/-! ## When a combination can be made -/

section

variable {S : Settings} {block : Block} {operator : Expr} {operands : List Expr}

/-- The combinations of a primitive operator with constant operands, and the direct applications of lambda
expressions. -/
def Direct (operator : Expr) (operands : List Expr) : Prop :=
  (∃ p, operator = .constant (.primitive p) ∧ operands.all isConstant = true) ∨
    ∃ inner name required optional rest body, operator = .procedure inner name required optional rest body

/-- The program itself would fail at the combination: the primitive signals an error on the constants, or the number
of operands is wrong. -/
def Fails (S : Settings) (operands : List Expr) : Expr → Prop
  | .constant (.primitive p) =>
      procedureArityValid p operands.length = false ∨ S.applyPrimitive p (operands.filterMap constantValue) = none
  | .procedure _ _ required optional rest _ =>
      operands.length < required.length ∨ rest = none ∧ required.length + optional.length < operands.length
  | _ => False

/-- An expression is returned, and it is the combination itself where the program would fail. -/
def LeavesErrors (S : Settings) (block : Block) (operator : Expr) (operands : List Expr) : Prop :=
  ∃ e, combinationMake S block operator operands = .ok e ∧
    (Fails S operands operator → e = .combination block operator operands)

/-- The operands fit the parameters, the optional ones included, and the analyses that are made of the body, of the
operands that are discarded and of what is left have answers. -/
def Deletable (S : Settings) (block inner : Block) (name : Symbol) (parameters : List Variable)
    (rest : Option Variable) (body : Expr) (operands : List Expr) : Prop :=
  Fits parameters rest operands ∧ ∃ free, freeVariables body = some free ∧
    (discardedOperands S free parameters operands = [] ∨
      ∀ action ∈ actionsOf (reduced block inner name body (keptParameters free parameters)
          (keptOperands free parameters operands) :: discardedOperands S free parameters operands),
        (effectFree action).isSome)

/-- Nothing is folded that signals an error, and no argument is deleted that cannot be. -/
structure Applicable (S : Settings) (block : Block) (operator : Expr) (operands : List Expr) : Prop where
  folding : ∀ p, operator = .constant (.primitive p) → foldableCombination operator operands = true →
    S.enableConstantFolding.noisyTest = true → S.applyPrimitive p (operands.filterMap constantValue) ≠ none
  deletion : ∀ inner name required optional rest body,
    operator = .procedure inner name required optional rest body → reducibleOperator S operator = true →
      S.enableArgumentDeletion.noisyTest = true →
        Deletable S block inner name (required ++ optional) rest body operands

variable {body : Expr} {inner : Block} {name : Symbol}

theorem reduced_actions_ne_nil {newArgumentList : List Variable}
    {newOperandList : List Expr} (hbody : wellFormed body = true) :
    (reduced block inner name body newArgumentList newOperandList).actions ≠ [] := by
  unfold reduced
  split
  · exact cons_ne_nil _ _
  · exact actions_ne_nil body hbody

theorem mem_actionsOf_reverse {es : List Expr} {e action : Expr} :
    action ∈ actionsOf (es.reverse ++ [e]) ↔ action ∈ actionsOf (e :: es) := by
  have hmem : ∀ es : List Expr, action ∈ actionsOf es ↔ ∃ e ∈ es, action ∈ e.actions := by
    intro es
    induction es with
    | nil => simp [actionsOf]
    | cons e es ih => simp [actionsOf, ih]
  rw [hmem, hmem]
  simp [or_comm]

theorem combinationMake_procedure_iff (block : Block) (operands : List Expr)
    {required optional : List Variable} {rest : Option Variable} (hbody : wellFormed body = true)
    (hreducible : reducibleOperator S (.procedure inner name required optional rest body) = true)
    (hswitch : S.enableArgumentDeletion.noisyTest = true) :
    (∃ e, combinationMake S block (.procedure inner name required optional rest body) operands = .ok e) ↔
      Deletable S block inner name (required ++ optional) rest body operands := by
  have hrest : rest.all S.integrated = true := by
    rw [reducibleOperator, Bool.and_eq_true] at hreducible
    exact hreducible.2
  rw [combinationMake, if_pos (by rw [hreducible, hswitch]; rfl)]
  unfold partitionOperands Deletable
  cases hfree : freeVariables body with
  | none =>
      constructor
      · rintro ⟨e, he⟩
        cases he
      · rintro ⟨-, free, hnone, -⟩
        cases hnone
  | some free =>
      simp only [Option.some.injEq, exists_eq_left']
      by_cases hfits : Fits (required ++ optional) rest operands
      · have hloop := partitionLoop_eq free hrest hfits [] [] []
        simp only [reverse_nil, nil_append, append_nil] at hloop
        simp only [answered_some, bind, Except.bind, hloop, hfits, true_and, isEmpty_reverse]
        split
        · rename_i hempty
          exact iff_of_true ⟨_, rfl⟩ (Or.inl (List.isEmpty_iff.mp hempty))
        · rename_i hempty
          rw [List.isEmpty_iff] at hempty
          rw [or_iff_right hempty, sequenceMake_ok_iff]
          · simp only [mem_actionsOf_reverse]
          · rw [actionsOf_append]
            intro h
            have hresult := (append_eq_nil_iff.mp h).2
            rw [actionsOf, actionsOf, append_nil] at hresult
            exact reduced_actions_ne_nil hbody hresult
      · refine iff_of_false ?_ (fun h => hfits h.1)
        rintro ⟨e, he⟩
        cases hloop : partitionLoop S rest free (required ++ optional) operands [] [] [] with
        | error failure =>
            simp only [answered_some, bind, Except.bind, hloop] at he
            cases he
        | ok result => exact partitionLoop_error hfits [] [] [] result hloop

theorem Fits.not_fails {required optional : List Variable} {rest : Option Variable} (h : Fits (required ++ optional) rest operands) :
    ¬ Fails S operands (.procedure inner name required optional rest body) := by
  obtain ⟨hlength, hrest⟩ := h
  rw [length_append] at hlength hrest
  rintro (hfew | ⟨rfl, hmany⟩)
  · omega
  · have := hrest rfl
    omega

/-- **A combination is made, and errors are left for run time, just where SF has no work to do that can fail.** -/
theorem leavesErrors_iff (hdirect : Direct operator operands)
    (hwellFormed : wellFormed (.combination block operator operands) = true) :
    LeavesErrors S block operator operands ↔ Applicable S block operator operands := by
  rcases hdirect with ⟨p, rfl, hconstant⟩ | ⟨inner, name, required, optional, rest, body, rfl⟩
  · unfold LeavesErrors
    rw [combinationMake]
    split
    · -- The combination is folded.
      rename_i hfold
      obtain ⟨hfoldable, hswitch⟩ := Bool.and_eq_true_iff.mp hfold
      have harity : procedureArityValid p operands.length = true := by
        unfold foldableCombination at hfoldable
        simp only [primitiveValue, Option.any_some, Bool.and_eq_true] at hfoldable
        exact hfoldable.1.1
      unfold foldConstant
      constructor
      · rintro ⟨e, he, -⟩
        refine ⟨?_, fun _ _ _ _ _ _ h => (by cases h)⟩
        intro p' hp' _ _ hnone
        cases hp'
        rw [hnone] at he
        cases he
      · intro h
        obtain ⟨result, hresult⟩ := Option.ne_none_iff_exists'.mp (h.folding p rfl hfoldable hswitch)
        refine ⟨.constant result, by rw [hresult], ?_⟩
        rintro (hwrong | hnone)
        · rw [harity] at hwrong
          cases hwrong
        · rw [hresult] at hnone
          cases hnone
    · rename_i hfold
      refine iff_of_true ⟨_, rfl, fun _ => rfl⟩ ⟨?_, fun _ _ _ _ _ _ h => (by cases h)⟩
      intro p' hp' hfoldable hswitch
      exact absurd (Bool.and_eq_true_iff.mpr ⟨hfoldable, hswitch⟩) hfold
  · have hbody : wellFormed body = true := by
      rw [wellFormed, Bool.and_eq_true] at hwellFormed
      exact hwellFormed.1
    by_cases hreducible : reducibleOperator S (.procedure inner name required optional rest body) = true ∧
        S.enableArgumentDeletion.noisyTest = true
    · have hmake := combinationMake_procedure_iff block operands hbody hreducible.1 hreducible.2
      constructor
      · rintro ⟨e, he, -⟩
        refine ⟨fun _ h => (by cases h), ?_⟩
        intro inner' name' required' optional' rest' body' heq _ _
        cases heq
        exact hmake.mp ⟨e, he⟩
      · intro h
        have hdeletable := h.deletion inner name required optional rest body rfl hreducible.1 hreducible.2
        obtain ⟨e, he⟩ := hmake.mpr hdeletable
        exact ⟨e, he, fun hfails => absurd hfails hdeletable.1.not_fails⟩
    · unfold LeavesErrors
      rw [combinationMake, if_neg (by rwa [Bool.and_eq_true])]
      refine iff_of_true ⟨_, rfl, fun _ => rfl⟩ ⟨fun _ h => (by cases h), ?_⟩
      intro inner' name' required' optional' rest' body' heq hreducible' hswitch
      exact absurd ⟨hreducible', hswitch⟩ hreducible

end

/-- The settings that SF starts with, where the only primitive is `1+` and the other objects are numbers. -/
def onePlusSettings : Settings where
  enableConstantFolding := .on
  enableArgumentDeletion := .on
  integrated _ := false
  applyPrimitive p operands :=
    match operands with
    | [.other n] => if p.name = "1+" then some (.other (n + 1)) else none
    | _ => none

/-- The primitive `1+`. -/
def onePlus : Expr := .constant (.primitive ⟨"1+", some 1⟩)

/-- `(lambda (x) x)` -/
def identity : Expr := .procedure ⟨true, [], [0]⟩ (.interned "lambda") [0] [] none (.reference ⟨true, [], [0]⟩ 0)

theorem direct_onePlus (value : Object) : Direct onePlus [.constant value] := Or.inl ⟨_, rfl, rfl⟩

theorem direct_identity (operands : List Expr) : Direct identity operands := Or.inr ⟨_, _, _, _, _, _, rfl⟩

/-- A block of the program's outermost body. -/
def outerBlock : Block := ⟨true, [], []⟩

theorem leavesErrors_calls : LeavesErrors onePlusSettings outerBlock onePlus [.constant (.other 1)] ∧
    LeavesErrors onePlusSettings outerBlock identity [.constant (.other 1)] := by
  constructor
  · refine (leavesErrors_iff (direct_onePlus _) rfl).mpr ⟨?_, fun _ _ _ _ _ _ h => (by cases h)⟩
    intro p hp _ _ hnone
    cases hp
    cases hnone
  · refine (leavesErrors_iff (direct_identity _) (by decide)).mpr ⟨fun _ h => (by cases h), ?_⟩
    intro inner name required optional rest body heq _ _
    cases heq
    exact ⟨⟨Nat.le_refl _, fun _ => rfl⟩, [0], rfl, Or.inl rfl⟩

/-- `(1+ #f)` is applied by SF itself, and `((lambda (x) x))` and `((lambda (x) x) 1 2)` are errors that it signals. -/
theorem combinationMake_fails :
    combinationMake onePlusSettings outerBlock onePlus [.constant (.boolean false)] = .error .primitive ∧
    combinationMake onePlusSettings outerBlock identity [] = .error (.parameters "Argument mismatch" [0]) ∧
    combinationMake onePlusSettings outerBlock identity [.constant (.other 1), .constant (.other 2)] =
      .error (.operands "Argument mismatch" [.constant (.other 2)]) ∧
    ¬ ∀ S block operator operands, Direct operator operands →
      wellFormed (.combination block operator operands) = true → LeavesErrors S block operator operands := by
  refine ⟨rfl, rfl, rfl, ?_⟩
  intro h
  obtain ⟨e, he, -⟩ := h onePlusSettings outerBlock identity [] (direct_identity _) (by decide)
  cases he

end MitScheme.Sf
