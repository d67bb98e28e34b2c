import MitScheme.Sf.EvaluationProof

/-!
# The answers of the analyses are right

What each of the six answers says about a run, and that it holds of every run that returns a value. A node's runs go
through its parts, and the answers about the parts are right one level further down.
-/

namespace MitScheme.Sf

open Or (inl inr)

/-- The six questions. -/
inductive Predicate where
  | alwaysFalse
  | neverFalse
  | boolean
  | effectFree
  | pureFalse
  | pureTrue
deriving DecidableEq, Repr

/-- The answer to a question about an expression. -/
def analysis : Predicate → Expr → Option Bool
  | .alwaysFalse => alwaysFalse
  | .neverFalse => neverFalse
  | .boolean => isBoolean
  | .effectFree => effectFree
  | .pureFalse => pureFalse
  | .pureTrue => pureTrue

variable {Env Memory : Type}

/-- What the answer says about a run from `s` to `s'` that returns `v`. -/
def Means (s s' : Machine Memory) (v : Value Env) : Predicate → Prop
  | .alwaysFalse => v = .false
  | .neverFalse => v ≠ .false
  | .boolean => v = .false ∨ v = .true
  | .effectFree => s'.effects = s.effects
  | .pureFalse => s'.effects = s.effects ∧ v = .false
  | .pureTrue => s'.effects = s.effects ∧ v = .true

/-- The answer holds of every run down to the depth. -/
def SoundTo (R : RunTime Env Memory) (depth : Nat) (p : Predicate) (e : Expr) : Prop :=
  ∀ {env s s' v}, eval R depth env e s = some (v, s') → Means s s' v p

/-- Whether the question is also about what a run does. -/
def Predicate.concernsEffects : Predicate → Bool
  | .effectFree | .pureFalse | .pureTrue => true
  | _ => false

section

variable {s s₁ s' : Machine Memory} {v : Value Env} {p : Predicate}

theorem Means.after (h : Means s₁ s' v p) (hs : p.concernsEffects = true → s₁.effects = s.effects) :
    Means s s' v p := by
  cases p with
  | alwaysFalse | neverFalse | boolean => exact h
  | effectFree => exact Eq.trans h (hs rfl)
  | pureFalse | pureTrue => exact ⟨h.1.trans (hs rfl), h.2⟩

end

/-! ## What the answers say of the parts -/

section

variable {x y : Option Bool}

theorem and_eq_true : (x <&&> y) = some true ↔ x = some true ∧ y = some true := by
  cases x with
  | none => simp [andM]
  | some b => cases b <;> simp [andM, toBool]

theorem or_eq_true : (x <||> y) = some true ↔ x = some true ∨ x = some false ∧ y = some true := by
  cases x with
  | none => simp [orM]
  | some b => cases b <;> simp [orM, toBool]

theorem or_true (h : (x <||> y) = some true) : x = some true ∨ y = some true :=
  (or_eq_true.mp h).imp_right And.right

end

theorem last_eq {f : Expr → Option Bool} {last : List Expr → Option Bool} (hnil : last [] = none)
    (hone : ∀ action, last [action] = f action)
    (hmore : ∀ first action actions, last (first :: action :: actions) = last (action :: actions))
    (actions : List Expr) : last actions = actions.getLast?.bind f := by
  induction actions with
  | nil => exact hnil
  | cons first actions ih =>
      cases actions with
      | nil => exact hone first
      | cons action actions => rw [hmore, ih, List.getLast?_cons_cons]

theorem lastAlwaysFalse_eq (actions : List Expr) : lastAlwaysFalse actions = actions.getLast?.bind alwaysFalse :=
  last_eq rfl (fun _ => rfl) (fun _ _ _ => rfl) actions

theorem lastNeverFalse_eq (actions : List Expr) : lastNeverFalse actions = actions.getLast?.bind neverFalse :=
  last_eq rfl (fun _ => rfl) (fun _ _ _ => rfl) actions

theorem lastIsBoolean_eq (actions : List Expr) : lastIsBoolean actions = actions.getLast?.bind isBoolean :=
  last_eq rfl (fun _ => rfl) (fun _ _ _ => rfl) actions

theorem everyEffectFree_eq_true {es : List Expr} :
    everyEffectFree es = some true ↔ ∀ e ∈ es, effectFree e = some true := by
  induction es with
  | nil => simp [everyEffectFree]
  | cons e es ih => rw [everyEffectFree, and_eq_true, ih, List.forall_mem_cons]

theorem lastPure_eq_true {f : Expr → Option Bool} {last : List Expr → Option Bool} (hnil : last [] = none)
    (hone : ∀ action, last [action] = f action)
    (hmore : ∀ first action actions, last (first :: action :: actions) = (effectFree first <&&> last (action :: actions)))
    {actions : List Expr} (h : last actions = some true) :
    ∃ init action, actions = init ++ [action] ∧ f action = some true ∧ ∀ e ∈ init, effectFree e = some true := by
  induction actions with
  | nil =>
      rw [hnil] at h
      cases h
  | cons first actions ih =>
      cases actions with
      | nil =>
          rw [hone] at h
          exact ⟨[], first, rfl, h, nofun⟩
      | cons action actions =>
          rw [hmore, and_eq_true] at h
          obtain ⟨init, e, heq, he, hinit⟩ := ih h.2
          exact ⟨first :: init, e, by rw [heq, List.cons_append], he, List.forall_mem_cons.mpr ⟨h.1, hinit⟩⟩

variable {p : Predicate}

theorem sequence_answer {actions : List Expr} (hne : actions ≠ []) (h : analysis p (.sequence actions) = some true) :
    ∃ init action, actions = init ++ [action] ∧ analysis p action = some true ∧
      (p.concernsEffects = true → ∀ e ∈ init, effectFree e = some true) := by
  have hlast : ∀ {f : Expr → Option Bool}, actions.getLast?.bind f = some true →
      ∃ init action, actions = init ++ [action] ∧ f action = some true := by
    intro f hf
    obtain ⟨action, haction, hanswer⟩ := Option.bind_eq_some_iff.mp hf
    obtain ⟨init, hactions⟩ := List.getLast?_eq_some_iff.mp haction
    exact ⟨init, action, hactions, hanswer⟩
  cases p with
  | alwaysFalse =>
      obtain ⟨init, action, hactions, hanswer⟩ := hlast ((lastAlwaysFalse_eq actions).symm.trans h)
      exact ⟨init, action, hactions, hanswer, nofun⟩
  | neverFalse =>
      obtain ⟨init, action, hactions, hanswer⟩ := hlast ((lastNeverFalse_eq actions).symm.trans h)
      exact ⟨init, action, hactions, hanswer, nofun⟩
  | boolean =>
      obtain ⟨init, action, hactions, hanswer⟩ := hlast ((lastIsBoolean_eq actions).symm.trans h)
      exact ⟨init, action, hactions, hanswer, nofun⟩
  | effectFree =>
      have hall := everyEffectFree_eq_true.mp h
      obtain ⟨init, action, rfl⟩ := List.eq_nil_or_concat actions |>.resolve_left hne
      refine ⟨init, action, List.concat_eq_append, ?_, ?_⟩
      · exact hall action (by simp)
      · intro _ e he
        exact hall e (by simp [he])
  | pureFalse =>
      obtain ⟨init, action, hactions, hanswer, hinit⟩ :=
        lastPure_eq_true rfl (fun _ => rfl) (fun _ _ _ => rfl) (show lastPureFalse actions = some true from h)
      exact ⟨init, action, hactions, hanswer, fun _ => hinit⟩
  | pureTrue =>
      obtain ⟨init, action, hactions, hanswer, hinit⟩ :=
        lastPure_eq_true rfl (fun _ => rfl) (fun _ _ _ => rfl) (show lastPureTrue actions = some true from h)
      exact ⟨init, action, hactions, hanswer, fun _ => hinit⟩

theorem openBlock_answer {block : Block} {vars : List Variable} {values actions : List Expr}
    (h : analysis p (.openBlock block vars values actions) = some true) :
    ∃ action, actions.getLast? = some action ∧ analysis p action = some true ∧ p.concernsEffects = false := by
  cases p with
  | alwaysFalse =>
      obtain ⟨action, haction, hanswer⟩ := Option.bind_eq_some_iff.mp ((lastAlwaysFalse_eq actions).symm.trans h)
      exact ⟨action, haction, hanswer, rfl⟩
  | neverFalse =>
      obtain ⟨action, haction, hanswer⟩ := Option.bind_eq_some_iff.mp ((lastNeverFalse_eq actions).symm.trans h)
      exact ⟨action, haction, hanswer, rfl⟩
  | boolean =>
      obtain ⟨action, haction, hanswer⟩ := Option.bind_eq_some_iff.mp ((lastIsBoolean_eq actions).symm.trans h)
      exact ⟨action, haction, hanswer, rfl⟩
  | effectFree | pureFalse | pureTrue => cases h

theorem conditional_answer {predicate consequent alternative : Expr}
    (h : analysis p (.conditional predicate consequent alternative) = some true) :
    (p.concernsEffects = true → effectFree predicate = some true) ∧
      (alwaysFalse predicate = some true ∨ analysis p consequent = some true) ∧
      (neverFalse predicate = some true ∨ analysis p alternative = some true) := by
  have hvalue : ∀ {x y : Option Bool},
      ((alwaysFalse predicate <||> x) <&&> (neverFalse predicate <||> y)) = some true →
        (alwaysFalse predicate = some true ∨ x = some true) ∧ (neverFalse predicate = some true ∨ y = some true) := by
    intro x y hxy
    exact ⟨or_true (and_eq_true.mp hxy).1, or_true (and_eq_true.mp hxy).2⟩
  cases p with
  | alwaysFalse | neverFalse | boolean => exact ⟨nofun, hvalue h⟩
  | effectFree | pureFalse | pureTrue => exact ⟨fun _ => (and_eq_true.mp h).1, hvalue (and_eq_true.mp h).2⟩

theorem disjunction_answer {predicate alternative : Expr}
    (h : analysis p (.disjunction predicate alternative) = some true) :
    (neverFalse predicate = some true ∨ analysis p alternative = some true) ∧
      (p.concernsEffects = true → effectFree predicate = some true ∨ pureFalse predicate = some true) ∧
      (p = .neverFalse ∨ p = .effectFree ∨ analysis p predicate = some true ∨
        p = .pureTrue ∧ isBoolean predicate = some true) := by
  cases p with
  | alwaysFalse =>
      have h := and_eq_true.mp h
      exact ⟨inr h.2, nofun, inr (inr (inl h.1))⟩
  | neverFalse => exact ⟨or_true h, nofun, inl rfl⟩
  | boolean =>
      have h := and_eq_true.mp h
      exact ⟨or_true h.2, nofun, inr (inr (inl h.1))⟩
  | effectFree =>
      have h := and_eq_true.mp h
      exact ⟨or_true h.2, fun _ => inl h.1, inr (inl rfl)⟩
  | pureFalse =>
      have h := and_eq_true.mp h
      exact ⟨inr h.2, fun _ => inr h.1, inr (inr (inl h.1))⟩
  | pureTrue =>
      have h := and_eq_true.mp h
      have htail := and_eq_true.mp h.2
      exact ⟨inr htail.2, fun _ => inl h.1, inr (inr (inr ⟨rfl, htail.1⟩))⟩

theorem callToNot_iff {operator : Expr} {n : Nat} :
    callToNot operator n = true ↔ operator = .constant (.primitive ucodeNot) ∧ n = 1 := by
  constructor
  · intro h
    unfold callToNot at h
    split at h
    · rw [Bool.and_eq_true, beq_iff_eq] at h
      obtain ⟨rfl, harity⟩ := h
      exact ⟨rfl, (beq_iff_eq.mp harity).symm⟩
    · cases h
  · intro h
    rw [h.1, h.2]
    rfl

/-- The question whose answer about the operand of `not` answers the question about the call. -/
def Predicate.negated : Predicate → Option Predicate
  | .alwaysFalse => some .neverFalse
  | .neverFalse => some .alwaysFalse
  | .pureFalse => some .pureTrue
  | .pureTrue => some .pureFalse
  | _ => none

/-- The ways in which a combination can be known to be what is asked: it applies a lambda expression, it negates, or
it calls a primitive that is listed. -/
inductive Known (p : Predicate) : Expr → List Expr → Prop
  | body {block name required optional rest body operands} (hbody : analysis p body = some true)
      (hoperands : p.concernsEffects = true → ∀ e ∈ operands, effectFree e = some true) :
      Known p (.procedure block name required optional rest body) operands
  | negation {q operand} (hq : p.negated = some q) (hoperand : analysis q operand = some true) :
      Known p (.constant (.primitive ucodeNot)) [operand]
  | predicate {q operands} (hp : p = .boolean) (hq : q.name ∈ primitiveBooleanPredicates) :
      Known p (.constant (.primitive q)) operands
  | effectFree {q operands} (hp : p = .effectFree) (hq : q.name ∈ effectFreePrimitives)
      (hoperands : ∀ e ∈ operands, effectFree e = some true) : Known p (.constant (.primitive q)) operands

/-- What is asked about a combination, by the four questions that look through a call of `not`: the first question
about its operand, or else the second about the body of a lambda expression that is called. -/
def truthOfCall (x y : Expr → Option Bool) (operator : Expr) (operands : List Expr) : Option Bool :=
  if callToNot operator operands.length then
    match operands with
    | operand :: _ => x operand
    | [] => none
  else
    match operator with
    | .procedure _ _ _ _ _ body => y body
    | _ => some false

section

variable (block : Block) (operator : Expr) (operands : List Expr)

theorem alwaysFalse_combination :
    alwaysFalse (.combination block operator operands) = truthOfCall neverFalse alwaysFalse operator operands :=
  (alwaysFalse.eq_def _).trans rfl

theorem neverFalse_combination :
    neverFalse (.combination block operator operands) = truthOfCall alwaysFalse neverFalse operator operands :=
  (neverFalse.eq_def _).trans rfl

theorem pureFalse_combination : pureFalse (.combination block operator operands) =
    truthOfCall pureTrue (fun body => everyEffectFree operands <&&> pureFalse body) operator operands :=
  (pureFalse.eq_def _).trans rfl

theorem pureTrue_combination : pureTrue (.combination block operator operands) =
    truthOfCall pureFalse (fun body => everyEffectFree operands <&&> pureTrue body) operator operands :=
  (pureTrue.eq_def _).trans rfl

theorem effectFree_combination : effectFree (.combination block operator operands) =
    (everyEffectFree operands <&&>
      if callToEffectFreePrimitive operator operands.length then some true
      else
        match operator with
        | .procedure _ _ _ _ _ body => effectFree body
        | _ => some false) :=
  (effectFree.eq_def _).trans rfl

end

theorem known_of_truth {q : Predicate} {operator : Expr} {operands : List Expr} {y : Expr → Option Bool}
    (hq : p.negated = some q) (h : truthOfCall (analysis q) y operator operands = some true)
    (hbody : ∀ {body}, y body = some true →
      analysis p body = some true ∧ (p.concernsEffects = true → ∀ e ∈ operands, Sf.effectFree e = some true)) :
    Known p operator operands := by
  unfold truthOfCall at h
  split at h
  · rename_i hnot
    obtain ⟨rfl, hlength⟩ := callToNot_iff.mp hnot
    obtain ⟨operand, rfl⟩ := List.length_eq_one_iff.mp hlength
    exact .negation hq h
  · split at h
    · exact .body (hbody h).1 (hbody h).2
    · cases h

theorem combination_answer {block : Block} {operator : Expr} {operands : List Expr}
    (h : analysis p (.combination block operator operands) = some true) : Known p operator operands := by
  cases p with
  | alwaysFalse =>
      rw [analysis, alwaysFalse_combination] at h
      exact known_of_truth (q := .neverFalse) rfl h fun hbody => ⟨hbody, nofun⟩
  | neverFalse =>
      rw [analysis, neverFalse_combination] at h
      exact known_of_truth (q := .alwaysFalse) rfl h fun hbody => ⟨hbody, nofun⟩
  | boolean =>
      have h : callToBooleanPredicate operator operands.length = true := Option.some.inj h
      unfold callToBooleanPredicate at h
      split at h
      · exact .predicate rfl (List.contains_iff_mem.mp (Bool.and_eq_true_iff.mp h).1)
      · cases h
  | effectFree =>
      rw [analysis, effectFree_combination, and_eq_true] at h
      obtain ⟨hoperands, h⟩ := h
      have hoperands := everyEffectFree_eq_true.mp hoperands
      split at h
      · rename_i hcall
        unfold callToEffectFreePrimitive at hcall
        split at hcall
        · exact .effectFree rfl (List.contains_iff_mem.mp (Bool.and_eq_true_iff.mp hcall).1) hoperands
        · cases hcall
      · split at h
        · exact .body h fun _ => hoperands
        · cases h
  | pureFalse =>
      rw [analysis, pureFalse_combination] at h
      refine known_of_truth (q := .pureTrue) rfl h ?_
      intro body hbody
      exact ⟨(and_eq_true.mp hbody).2, fun _ => everyEffectFree_eq_true.mp (and_eq_true.mp hbody).1⟩
  | pureTrue =>
      rw [analysis, pureTrue_combination] at h
      refine known_of_truth (q := .pureFalse) rfl h ?_
      intro body hbody
      exact ⟨(and_eq_true.mp hbody).2, fun _ => everyEffectFree_eq_true.mp (and_eq_true.mp hbody).1⟩

/-! ## What the runs of the nodes return -/

section

variable {R : RunTime Env Memory} {depth : Nat} {env : Env} {s s' : Machine Memory} {v : Value Env}

/-- The answers are right for runs down to the depth. -/
def AllSound (R : RunTime Env Memory) (depth : Nat) : Prop :=
  ∀ {p e}, analysis p e = some true → SoundTo R depth p e

theorem conditional_sound {predicate consequent alternative : Expr} (ih : AllSound R depth)
    (h : analysis p (.conditional predicate consequent alternative) = some true) :
    SoundTo R (depth + 1) p (.conditional predicate consequent alternative) := by
  intro env s s' v hrun
  obtain ⟨hpredicate, hconsequent, halternative⟩ := conditional_answer h
  obtain ⟨w, s₁, hw, hbranch⟩ := eval_conditional hrun
  have heffects : p.concernsEffects = true → s₁.effects = s.effects := by
    intro hp
    exact ih (p := .effectFree) (hpredicate hp) hw
  rcases hbranch with ⟨hfalse, hv⟩ | ⟨htrue, hv⟩
  · rcases halternative with hnever | hanswer
    · exact absurd hfalse (ih (p := .neverFalse) hnever hw)
    · exact (ih hanswer hv).after heffects
  · rcases hconsequent with halways | hanswer
    · exact absurd (ih (p := .alwaysFalse) halways hw) htrue
    · exact (ih hanswer hv).after heffects

theorem disjunction_sound {predicate alternative : Expr} (ih : AllSound R depth)
    (h : analysis p (.disjunction predicate alternative) = some true) :
    SoundTo R (depth + 1) p (.disjunction predicate alternative) := by
  intro env s s' v hrun
  obtain ⟨halternative, hpredicate, hvalue⟩ := disjunction_answer h
  obtain ⟨w, s₁, hw, hbranch⟩ := eval_disjunction hrun
  have heffects : p.concernsEffects = true → s₁.effects = s.effects := by
    intro hp
    rcases hpredicate hp with heffect | hpure
    · exact ih (p := .effectFree) heffect hw
    · exact (ih (p := .pureFalse) hpure hw).1
  rcases hbranch with ⟨hfalse, hv⟩ | ⟨htrue, rfl, rfl⟩
  · rcases halternative with hnever | hanswer
    · exact absurd hfalse (ih (p := .neverFalse) hnever hw)
    · exact (ih hanswer hv).after heffects
  -- The value is that of the first part, and is not `#f`.
  · rcases hvalue with rfl | rfl | hanswer | ⟨rfl, hboolean⟩
    · exact htrue
    · exact heffects rfl
    · exact ih hanswer hw
    · exact ⟨heffects rfl, (ih (p := .boolean) hboolean hw).resolve_left htrue⟩

theorem Means.negation {q : Predicate} {w : Value Env} (hq : p.negated = some q) (h : Means s s' w q) :
    Means s s' (if w.isFalse then .true else .false : Value Env) p := by
  have hfalse : ∀ {w : Value Env}, w ≠ .false → w.isFalse = false :=
    fun hne => Bool.eq_false_iff.mpr fun heq => hne (Value.isFalse_iff _ |>.mp heq)
  cases p with
  | alwaysFalse =>
      cases hq
      rw [hfalse h]
      rfl
  | neverFalse =>
      cases hq
      cases h
      exact nofun
  | boolean | effectFree => cases hq
  | pureFalse | pureTrue =>
      cases hq
      obtain ⟨heffects, rfl⟩ := h
      exact ⟨heffects, rfl⟩

theorem combination_sound {block : Block} {operator : Expr} {operands : List Expr} (ih : AllSound R depth)
    (h : analysis p (.combination block operator operands) = some true) :
    SoundTo R (depth + 1) p (.combination block operator operands) := by
  intro env s s' v hrun
  have heffectless : ∀ {e}, effectFree e = some true → Effectless (eval R depth env) e :=
    fun he => ih (p := .effectFree) he
  cases combination_answer h with
  | body hbody hoperands =>
      obtain ⟨vs, s₁, s₂, env', hvs, hs₂, hv⟩ := eval_let hrun
      refine (ih hbody hv).after fun hp => hs₂.trans ?_
      exact evalOperands_effects (fun e he => heffectless (hoperands hp e he)) hvs
  | @negation q operand hq hoperand =>
      obtain ⟨vs, s₁, m, m', hvs, hprimitive, heffects⟩ := eval_primitive hrun
      obtain ⟨w, hw, rfl⟩ := evalOperands_singleton hvs
      rw [R.not_value hprimitive]
      have hmeans := (ih hoperand hw).negation hq
      have hs' : s'.effects = s₁.effects := heffects (by decide)
      cases p with
      | alwaysFalse | neverFalse => exact hmeans
      | boolean | effectFree => cases hq
      | pureFalse | pureTrue => exact ⟨hs'.trans hmeans.1, hmeans.2⟩
  | predicate hp hq =>
      subst hp
      obtain ⟨vs, s₁, m, m', hvs, hprimitive, -⟩ := eval_primitive hrun
      exact R.predicate_value hq hprimitive
  | effectFree hp hq hoperands =>
      subst hp
      obtain ⟨vs, s₁, m, m', hvs, -, heffects⟩ := eval_primitive hrun
      exact (heffects hq).trans (evalOperands_effects (fun e he => heffectless (hoperands e he)) hvs)

theorem sequence_sound {actions : List Expr} (ih : AllSound R depth)
    (h : analysis p (.sequence actions) = some true) : SoundTo R (depth + 1) p (.sequence actions) := by
  intro env s s' v hrun
  have hne : actions ≠ [] := by
    rintro rfl
    cases hrun
  obtain ⟨init, action, rfl, hanswer, hinit⟩ := sequence_answer hne h
  obtain ⟨s₁, heffects, hv⟩ := evalSequence_concat hrun
  refine (ih hanswer hv).after fun hp => heffects fun e he => ?_
  exact ih (p := .effectFree) (hinit hp e he)

theorem openBlock_sound {block : Block} {vars : List Variable} {values actions : List Expr}
    (ih : AllSound R depth) (h : analysis p (.openBlock block vars values actions) = some true) :
    SoundTo R (depth + 1) p (.openBlock block vars values actions) := by
  intro env s s' v hrun
  obtain ⟨action, hlast, hanswer, hp⟩ := openBlock_answer h
  have hmarker : action ≠ .valueMarker := by
    rintro rfl
    cases p <;> cases hanswer
  obtain ⟨env', s₁, -, hblock⟩ := Run.bind_eq_some.mp hrun
  obtain ⟨s₂, hv⟩ := evalBlock_last hblock hlast hmarker
  exact (ih hanswer hv).after fun heffects => absurd heffects (by rw [hp]; exact Bool.false_ne_true)

/-- **What is answered holds of every run that returns a value.** -/
theorem analysis_sound (R : RunTime Env Memory) (depth : Nat) : AllSound R depth := by
  induction depth with
  | zero =>
      intro p e _ env s s' v hrun
      cases hrun
  | succ depth ih =>
      intro p e h
      cases e with
      | combination block operator operands => exact combination_sound ih h
      | conditional predicate consequent alternative => exact conditional_sound ih h
      | disjunction predicate alternative => exact disjunction_sound ih h
      | openBlock block vars values actions => exact openBlock_sound ih h
      | sequence actions => exact sequence_sound ih h
      | declaration declarations expression =>
          intro env s s' v hrun
          refine ih (e := expression) ?_ hrun
          cases p <;> exact h
      | access block environment name =>
          intro env s s' v hrun
          cases p with
          | effectFree =>
              obtain ⟨w, hw⟩ := eval_access hrun
              have hmeans : Means s s' w .effectFree := ih (e := environment) h hw
              exact hmeans
          | _ => cases h
      | constant value =>
          intro env s s' v hrun
          obtain ⟨rfl, rfl⟩ := eval_constant hrun
          cases p with
          | alwaysFalse => exact congrArg Value.object (beq_iff_eq.mp (Option.some.inj h))
          | neverFalse =>
              intro heq
              exact bne_iff_ne.mp (Option.some.inj h) (Value.object.inj heq)
          | boolean =>
              have h := Bool.or_eq_true_iff.mp (Option.some.inj h)
              exact h.imp (fun h => congrArg Value.object (beq_iff_eq.mp h))
                (fun h => congrArg Value.object (beq_iff_eq.mp h))
          | effectFree => rfl
          | pureFalse | pureTrue => exact ⟨rfl, congrArg Value.object (beq_iff_eq.mp (Option.some.inj h))⟩
      | reference block var =>
          intro env s s' v hrun
          cases p with
          | effectFree => rw [Means, Run.read_effects hrun]
          | _ => cases h
      | delay expression | procedure block name required optional rest body | theEnvironment block =>
          intro env s s' v hrun
          cases hrun
          cases p with
          | neverFalse => exact nofun
          | effectFree => rfl
          | _ => cases h
      | assignment block var value | quotation block expression | valueMarker => cases p <;> cases h

end

end MitScheme.Sf
