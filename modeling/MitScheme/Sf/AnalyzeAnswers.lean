import MitScheme.Lib.Questions
import MitScheme.Sf.AnalyzeSoundness
import MitScheme.Sf.Transform

/-!
# When the analyses answer

To answer a question about an expression the analyses ask others about its parts. The value marker has no method for
any of them, so a question that comes to a marker, as the last action of an open block, is an error.
-/

namespace MitScheme.Sf

open List Option
open Inquiry (eval_and eval_or eval_pose)

open SyntaxOutput (Symbol)

/-- A question about an expression. -/
abbrev Question := Predicate × Expr

open Inquiry (pose every)

/-- The two branches of a conditional, each unless it is known not to be taken. -/
def branches (p : Predicate) (predicate consequent alternative : Expr) : Inquiry Question :=
  ((pose (.alwaysFalse, predicate)).or (pose (p, consequent))).and
    ((pose (.neverFalse, predicate)).or (pose (p, alternative)))

/-- Whether each of the expressions is effect free. -/
def everyEffect (es : List Expr) : Inquiry Question := every (es.map fun e => (.effectFree, e))

/-- The question, asked about the last of the actions. -/
def last (p : Predicate) (actions : List Expr) : Option (Inquiry Question) :=
  actions.getLast?.map fun e => pose (p, e)

/-- The question about the body, when the operator is a lambda expression. -/
def body (operator : Expr) (ask : Expr → Inquiry Question) : Inquiry Question :=
  match operator with
  | .procedure _ _ _ _ _ body => ask body
  | _ => .answer false

def combinationMethod (p : Predicate) (operator : Expr) (operands : List Expr) : Option (Inquiry Question) :=
  match p with
  | .boolean => some (.answer (callToBooleanPredicate operator operands.length))
  | .effectFree => some ((everyEffect operands).and
      (if callToEffectFreePrimitive operator operands.length then .answer true
      else body operator fun e => pose (.effectFree, e)))
  | .alwaysFalse =>
      if callToNot operator operands.length then operands.head?.map fun e => pose (.neverFalse, e)
      else some (body operator fun e => pose (.alwaysFalse, e))
  | .neverFalse =>
      if callToNot operator operands.length then operands.head?.map fun e => pose (.alwaysFalse, e)
      else some (body operator fun e => pose (.neverFalse, e))
  | .pureFalse =>
      if callToNot operator operands.length then operands.head?.map fun e => pose (.pureTrue, e)
      else some (body operator fun e => (everyEffect operands).and (pose (.pureFalse, e)))
  | .pureTrue =>
      if callToNot operator operands.length then operands.head?.map fun e => pose (.pureFalse, e)
      else some (body operator fun e => (everyEffect operands).and (pose (.pureTrue, e)))

/-- What is asked to answer a question about an expression. -/
def method : Question → Option (Inquiry Question)
  | (p, .access _ environment _) =>
      some (if p = .effectFree then pose (.effectFree, environment) else .answer false)
  | (_, .assignment ..) => some (.answer false)
  | (p, .combination _ operator operands) => combinationMethod p operator operands
  | (p, .conditional predicate consequent alternative) =>
      some (if p.concernsEffects then
          (pose (.effectFree, predicate)).and (branches p predicate consequent alternative)
        else branches p predicate consequent alternative)
  | (p, .constant value) => some (.answer ((analysis p (.constant value)).getD false))
  | (p, .declaration _ expression) => some (pose (p, expression))
  | (p, .delay _) => some (.answer (p == .neverFalse || p == .effectFree))
  | (p, .disjunction predicate alternative) =>
    match p with
    | .neverFalse => some ((pose (.neverFalse, predicate)).or (pose (.neverFalse, alternative)))
    | .boolean | .effectFree =>
        some ((pose (p, predicate)).and ((pose (.neverFalse, predicate)).or (pose (p, alternative))))
    | .pureTrue =>
        some ((pose (.effectFree, predicate)).and ((pose (.boolean, predicate)).and (pose (.pureTrue, alternative))))
    | .alwaysFalse | .pureFalse => some ((pose (p, predicate)).and (pose (p, alternative)))
  | (p, .openBlock _ _ _ actions) => if p.concernsEffects then some (.answer false) else last p actions
  | (p, .procedure ..) => some (.answer (p == .neverFalse || p == .effectFree))
  | (_, .quotation ..) => some (.answer false)
  | (p, .reference ..) => some (.answer (p == .effectFree))
  | (p, .sequence actions) =>
    match p with
    | .effectFree => some (everyEffect actions)
    | .pureFalse | .pureTrue => (last p actions).map (everyEffect actions.dropLast).and
    | _ => last p actions
  | (p, .theEnvironment _) => some (.answer (p == .neverFalse || p == .effectFree))
  | (_, .valueMarker) => none

/-- The answers that the code gives. -/
def answer (q : Question) : Option Bool := analysis q.1 q.2

/-! ## The methods are those of the code -/

section

variable {p : Predicate} (block : Block) {operator : Expr} {operands actions : List Expr}

theorem eval_everyEffect (es : List Expr) : (everyEffect es).eval answer = everyEffectFree es := by
  induction es with
  | nil => rfl
  | cons e es ih =>
      change ((pose (.effectFree, e)).and (everyEffect es)).eval answer = _
      rw [eval_and, eval_pose, ih]
      rfl

theorem eval_last (p : Predicate) (actions : List Expr) :
    (last p actions).bind (Inquiry.eval answer) = actions.getLast?.bind (analysis p) := by
  unfold last
  cases actions.getLast? with
  | none => rfl
  | some e => exact eval_pose _

theorem eval_truth {q : Predicate} {ask : Expr → Inquiry Question} {y : Expr → Option Bool}
    (hask : ∀ e, (ask e).eval answer = y e) :
    (if callToNot operator operands.length then operands.head?.map fun e => pose (q, e)
      else some (body operator ask)).bind (Inquiry.eval answer) = truthOfCall (analysis q) y operator operands := by
  unfold truthOfCall
  split
  · cases operands with
    | nil => rfl
    | cons operand operands => exact eval_pose _
  · cases operator with
    | procedure block name required optional rest body => exact hask body
    | _ => rfl

theorem combinationMethod_eval : (combinationMethod p operator operands).bind (Inquiry.eval answer) =
    analysis p (.combination block operator operands) := by
  cases p with
  | alwaysFalse => exact (eval_truth fun e => eval_pose _).trans (alwaysFalse_combination ..).symm
  | neverFalse => exact (eval_truth fun e => eval_pose _).trans (neverFalse_combination ..).symm
  | boolean => rfl
  | effectFree =>
      refine Eq.trans ?_ (effectFree_combination ..).symm
      rw [combinationMethod, bind_some, eval_and, eval_everyEffect]
      congr 1
      split
      · rfl
      · cases operator with
        | procedure block name required optional rest body => exact eval_pose _
        | _ => rfl
  | pureFalse =>
      refine (eval_truth fun e => ?_).trans (pureFalse_combination ..).symm
      rw [eval_and, eval_everyEffect, eval_pose]
      rfl
  | pureTrue =>
      refine (eval_truth fun e => ?_).trans (pureTrue_combination ..).symm
      rw [eval_and, eval_everyEffect, eval_pose]
      rfl

theorem eval_lastPure {f : List Expr → Option Bool} (hnil : f [] = none) (hone : ∀ action, f [action] = analysis p action)
    (hmore : ∀ first action actions, f (first :: action :: actions) = (effectFree first <&&> f (action :: actions)))
    (actions : List Expr) :
    ((last p actions).map (everyEffect actions.dropLast).and).bind (Inquiry.eval answer) = f actions := by
  induction actions with
  | nil => exact hnil.symm
  | cons first actions ih =>
      cases actions with
      | nil => exact (eval_pose _).trans (hone first).symm
      | cons action actions =>
          rw [hmore, ← ih]
          unfold last
          rw [List.getLast?_cons_cons]
          cases hlast : (action :: actions).getLast? with
          | none => exact absurd hlast (by simp)
          | some e =>
              simp only [map_some, bind_some, eval_and, eval_everyEffect, dropLast_cons_cons,
                everyEffectFree]
              cases effectFree first with
              | none => rfl
              | some b => cases b <;> rfl

theorem branches_eval (p : Predicate) (predicate consequent alternative : Expr) :
    (branches p predicate consequent alternative).eval answer =
      ((alwaysFalse predicate <||> analysis p consequent) <&&>
        (neverFalse predicate <||> analysis p alternative)) := by
  simp only [branches, eval_and, eval_or, eval_pose]
  rfl

/-- **The questions are answered as the methods say.** -/
theorem answer_method (q : Question) : answer q = (method q).bind (Inquiry.eval answer) := by
  obtain ⟨p, e⟩ := q
  cases e with
  | access block environment name =>
      cases p with
      | effectFree => exact (eval_pose _).symm
      | _ => rfl
  | assignment block var value
  | constant value
  | delay expression
  | procedure block name required optional rest body
  | quotation block expression
  | reference block var
  | theEnvironment block
  | valueMarker => cases p <;> rfl
  | combination block operator operands => exact (combinationMethod_eval block).symm
  | conditional predicate consequent alternative =>
      have hbranches := branches_eval p predicate consequent alternative
      cases p with
      | alwaysFalse | neverFalse | boolean => exact hbranches.symm
      | effectFree | pureFalse | pureTrue =>
          refine Eq.symm ((eval_and _ _).trans ?_)
          rw [hbranches, eval_pose]
          rfl
  | declaration declarations expression =>
      refine Eq.trans ?_ (eval_pose _).symm
      cases p <;> rfl
  | disjunction predicate alternative =>
      cases p <;>
        simp only [method, bind_some, eval_and, eval_or, eval_pose] <;> rfl
  | openBlock block vars values actions =>
      cases p with
      | alwaysFalse => exact (lastAlwaysFalse_eq actions).trans (eval_last .alwaysFalse actions).symm
      | neverFalse => exact (lastNeverFalse_eq actions).trans (eval_last .neverFalse actions).symm
      | boolean => exact (lastIsBoolean_eq actions).trans (eval_last .boolean actions).symm
      | _ => rfl
  | sequence actions =>
      cases p with
      | alwaysFalse => exact (lastAlwaysFalse_eq actions).trans (eval_last .alwaysFalse actions).symm
      | neverFalse => exact (lastNeverFalse_eq actions).trans (eval_last .neverFalse actions).symm
      | boolean => exact (lastIsBoolean_eq actions).trans (eval_last .boolean actions).symm
      | effectFree => exact (eval_everyEffect actions).symm
      | pureFalse | pureTrue => exact (eval_lastPure rfl (fun _ => rfl) (fun _ _ _ => rfl) actions).symm

end

/-! ## The questions are about the parts -/

/-- The parts of an expression that its questions are about. -/
def parts : Expr → List Expr
  | .access _ environment _ => [environment]
  | .combination _ operator operands =>
    match operator with
    | .procedure _ _ _ _ _ body => body :: operands
    | _ => operands
  | .conditional predicate consequent alternative => [predicate, consequent, alternative]
  | .declaration _ expression => [expression]
  | .disjunction predicate alternative => [predicate, alternative]
  | .openBlock _ _ _ actions => actions
  | .sequence actions => actions
  | _ => []

section

variable {p : Predicate} {e : Expr} {es : List Expr} {x : Inquiry Question}

theorem everyEffect_about {actions : List Expr} (h : actions ⊆ es) :
    (everyEffect actions).All fun q => q.2 ∈ es := by
  refine Inquiry.All.every fun q hq => ?_
  obtain ⟨e, he, rfl⟩ := List.mem_map.mp hq
  exact h he

theorem pose_about (p : Predicate) (h : e ∈ es) : (pose (p, e)).All fun q => q.2 ∈ es :=
  (Inquiry.all_pose _).mpr h

theorem last_about {actions : List Expr} (h : last p actions = some x) : x.All fun q => q.2 ∈ actions := by
  obtain ⟨e, he, rfl⟩ := map_eq_some_iff.mp h
  exact pose_about p (List.mem_of_getLast? he)

theorem branches_about {predicate consequent alternative : Expr} :
    (branches p predicate consequent alternative).All fun q => q.2 ∈ [predicate, consequent, alternative] := by
  refine Inquiry.All.and (.or ?_ ?_) (.or ?_ ?_)
  · exact pose_about _ (by simp)
  · exact pose_about _ (by simp)
  · exact pose_about _ (by simp)
  · exact pose_about _ (by simp)

theorem body_about {block : Block} {operator : Expr} {operands : List Expr} {ask : Expr → Inquiry Question}
    (h : ∀ e es, e ∈ es → operands ⊆ es → (ask e).All fun q => q.2 ∈ es) :
    (body operator ask).All fun q => q.2 ∈ parts (.combination block operator operands) := by
  cases operator with
  | procedure block name required optional rest body => exact h _ _ mem_cons_self (subset_cons_self _ _)
  | _ => trivial

theorem operands_subset (block : Block) (operator : Expr) (operands : List Expr) :
    operands ⊆ parts (.combination block operator operands) := by
  cases operator with
  | procedure block name required optional rest body => exact subset_cons_self _ _
  | _ => exact List.Subset.refl _

theorem truth_about {block : Block} {operator : Expr} {operands : List Expr} {q : Predicate}
    {ask : Expr → Inquiry Question} (hask : ∀ e es, e ∈ es → operands ⊆ es → (ask e).All fun q => q.2 ∈ es)
    (h : (if callToNot operator operands.length then operands.head?.map fun e => pose (q, e)
      else some (body operator ask)) = some x) :
    x.All fun q => q.2 ∈ parts (.combination block operator operands) := by
  split at h
  · obtain ⟨e, he, rfl⟩ := map_eq_some_iff.mp h
    exact pose_about q (operands_subset block operator operands (List.mem_of_head? he))
  · cases h
    exact body_about hask

theorem combinationMethod_about {block : Block} {operator : Expr} {operands : List Expr}
    (h : combinationMethod p operator operands = some x) :
    x.All fun q => q.2 ∈ parts (.combination block operator operands) := by
  have hpure : ∀ (q : Predicate) (e : Expr) (es : List Expr), e ∈ es → operands ⊆ es →
      ((everyEffect operands).and (pose (q, e))).All fun q => q.2 ∈ es :=
    fun q e es he hes => .and (everyEffect_about hes) (pose_about q he)
  cases p with
  | alwaysFalse | neverFalse => exact truth_about (fun _ _ he _ => pose_about _ he) h
  | boolean =>
      cases h
      trivial
  | effectFree =>
      cases h
      refine .and (everyEffect_about (operands_subset block operator operands)) ?_
      split
      · trivial
      · exact body_about fun _ _ he _ => pose_about _ he
  | pureFalse | pureTrue => exact truth_about (hpure _) h

/-- **Every question is about a part.** -/
theorem method_about (h : method (p, e) = some x) : x.All fun q => q.2 ∈ parts e := by
  cases e with
  | access block environment name =>
      cases h
      split
      · exact pose_about _ mem_cons_self
      · trivial
  | combination block operator operands => exact combinationMethod_about h
  | conditional predicate consequent alternative =>
      cases h
      split
      · exact .and (pose_about _ mem_cons_self) branches_about
      · exact branches_about
  | declaration declarations expression =>
      cases h
      exact pose_about _ mem_cons_self
  | disjunction predicate alternative =>
      have hpredicate : ∀ q, (pose (q, predicate)).All fun q => q.2 ∈ parts (.disjunction predicate alternative) :=
        fun q => pose_about q (by simp [parts])
      have halternative : ∀ q, (pose (q, alternative)).All fun q => q.2 ∈ parts (.disjunction predicate alternative) :=
        fun q => pose_about q (by simp [parts])
      cases p with
      | neverFalse =>
          cases h
          exact .or (hpredicate _) (halternative _)
      | pureTrue =>
          cases h
          exact .and (hpredicate _) (.and (hpredicate _) (halternative _))
      | boolean | effectFree =>
          cases h
          exact .and (hpredicate _) (.or (hpredicate _) (halternative _))
      | alwaysFalse | pureFalse =>
          cases h
          exact .and (hpredicate _) (halternative _)
  | openBlock block vars values actions =>
      rw [method] at h
      split at h
      · cases h
        trivial
      · exact last_about h
  | sequence actions =>
      have hpure : ∀ q, (last q actions).map (everyEffect actions.dropLast).and = some x →
          x.All fun q => q.2 ∈ parts (.sequence actions) := by
        intro q hq
        obtain ⟨y, hy, rfl⟩ := map_eq_some_iff.mp hq
        exact .and (everyEffect_about (dropLast_subset actions)) (last_about hy)
      cases p with
      | effectFree =>
          cases h
          exact everyEffect_about (List.Subset.refl _)
      | pureFalse | pureTrue => exact hpure _ h
      | alwaysFalse | neverFalse | boolean => exact last_about h
  | valueMarker => cases h
  | _ =>
      cases h
      trivial

theorem sizeOf_parts {part : Expr} (h : part ∈ parts e) : sizeOf part < sizeOf e := by
  have hmem : ∀ {es : List Expr}, part ∈ es → sizeOf part < sizeOf es := sizeOf_lt_of_mem
  cases e with
  | access block environment name =>
      cases mem_singleton.mp h
      simp
      omega
  | combination block operator operands =>
      have hoperand : part ∈ operands → sizeOf part < sizeOf (Expr.combination block operator operands) := by
        intro hp
        have := hmem hp
        simp only [Expr.combination.sizeOf_spec]
        omega
      cases operator with
      | procedure inner name required optional rest body =>
          rcases mem_cons.mp h with rfl | h
          · simp only [Expr.combination.sizeOf_spec, Expr.procedure.sizeOf_spec]
            omega
          · exact hoperand h
      | _ => exact hoperand h
  | conditional predicate consequent alternative =>
      simp only [Expr.conditional.sizeOf_spec]
      simp only [parts, mem_cons, not_mem_nil, or_false] at h
      rcases h with rfl | rfl | rfl <;> omega
  | declaration declarations expression =>
      cases mem_singleton.mp h
      simp only [Expr.declaration.sizeOf_spec]
      omega
  | disjunction predicate alternative =>
      simp only [Expr.disjunction.sizeOf_spec]
      simp only [parts, mem_cons, not_mem_nil, or_false] at h
      rcases h with rfl | rfl <;> omega
  | openBlock block vars values actions =>
      have := @hmem actions h
      simp only [Expr.openBlock.sizeOf_spec]
      omega
  | sequence actions =>
      have := @hmem actions h
      simp only [Expr.sequence.sizeOf_spec]
      omega
  | _ => cases h

theorem parts_induct {P : Expr → Prop} (h : ∀ e, (∀ part ∈ parts e, P part) → P e) (e : Expr) : P e := by
  induction hn : sizeOf e using Nat.strongRecOn generalizing e with
  | ind n ih =>
      refine h e fun part hpart => ?_
      exact ih (sizeOf part) (hn ▸ sizeOf_parts hpart) part rfl

theorem answers : Answers answer method fun q => sizeOf q.2 where
  answered := answer_method
  smaller h := (method_about h).mono fun _ => sizeOf_parts

/-! ## What is reached from well-formed expressions -/

theorem parts_wellFormed {part : Expr} (he : wellFormed e = true) (h : part ∈ parts e) :
    part = .valueMarker ∨ wellFormed part = true := by
  cases e with
  | access block environment name | declaration declarations expression =>
      cases mem_singleton.mp h
      exact Or.inr he
  | combination block operator operands =>
      rw [wellFormed, Bool.and_eq_true, everyWellFormed_iff] at he
      cases operator with
      | procedure inner name required optional rest body =>
          rcases mem_cons.mp h with rfl | h
          · exact Or.inr he.1
          · exact Or.inr (he.2 part h)
      | _ => exact Or.inr (he.2 part h)
  | conditional predicate consequent alternative =>
      rw [wellFormed, Bool.and_eq_true, Bool.and_eq_true] at he
      simp only [parts, mem_cons, not_mem_nil, or_false] at h
      rcases h with rfl | rfl | rfl
      · exact Or.inr he.1.1
      · exact Or.inr he.1.2
      · exact Or.inr he.2
  | disjunction predicate alternative =>
      rw [wellFormed, Bool.and_eq_true] at he
      simp only [parts, mem_cons, not_mem_nil, or_false] at h
      rcases h with rfl | rfl
      · exact Or.inr he.1
      · exact Or.inr he.2
  | openBlock block vars values actions =>
      simp only [wellFormed, Bool.and_eq_true, actionsWellFormed_iff] at he
      exact he.1.1.1.2 part h
  | sequence actions =>
      rw [wellFormed, Bool.and_eq_true, everyWellFormed_iff] at he
      exact Or.inr (he.2 part h)
  | _ => cases h

theorem last_isSome {actions : List Expr} (h : actions ≠ []) : (last p actions).isSome = true := by
  rw [last, isSome_map]
  exact List.getLast?_isSome.mpr h

theorem method_isSome (he : wellFormed e = true) : (method (p, e)).isSome = true := by
  cases e with
  | combination block operator operands =>
      have htruth : ∀ {q ask}, (if callToNot operator operands.length then operands.head?.map fun e => pose (q, e)
          else some (body operator ask)).isSome = true := by
        intro q ask
        split
        · rename_i hnot
          obtain ⟨operand, rfl⟩ := length_eq_one_iff.mp (callToNot_iff.mp hnot).2
          rfl
        · rfl
      cases p with
      | boolean => rfl
      | effectFree => rfl
      | _ => exact htruth
  | openBlock block vars values actions =>
      simp only [wellFormed, Bool.and_eq_true, Bool.not_eq_true', isEmpty_eq_false_iff] at he
      rw [method]
      split
      · rfl
      · exact last_isSome he.1.1.1.1
  | sequence actions =>
      simp only [wellFormed, Bool.and_eq_true, Bool.not_eq_true', isEmpty_eq_false_iff] at he
      have hlast : ∀ q, (last q actions).isSome = true := fun q => last_isSome he.1
      cases p with
      | effectFree => rfl
      | pureFalse | pureTrue => exact (isSome_map ..).trans (hlast _)
      | alwaysFalse | neverFalse | boolean => exact hlast _
  | disjunction predicate alternative => cases p <;> rfl
  | valueMarker => cases he
  | _ => rfl

end

/-- The question comes to the value marker. -/
def ComesToMarker (q : Question) : Prop := ∃ p, Answers.Reaches answer method q (p, .valueMarker)

theorem reaches_wellFormed {q q' : Question} (h : Answers.Reaches answer method q q')
    (hq : q.2 = .valueMarker ∨ wellFormed q.2 = true) : q'.2 = .valueMarker ∨ wellFormed q'.2 = true := by
  induction h with
  | refl => exact hq
  | @tail q₁ q₂ _ hasks ih =>
      obtain ⟨x, hx, hmem⟩ := hasks
      have hpart : q₂.2 ∈ parts q₁.2 := (method_about (p := q₁.1) (e := q₁.2) hx).asked q₂ hmem
      rcases ih with hmarker | hwell
      · rw [hmarker] at hpart
        cases hpart
      · exact parts_wellFormed hwell hpart

theorem analysis_eq_none_iff {p : Predicate} {e : Expr} (he : wellFormed e = true) :
    analysis p e = none ↔ ComesToMarker (p, e) := by
  refine (answers.eq_none_iff (q := (p, e))).trans ?_
  constructor
  · intro h
    obtain ⟨⟨p', e'⟩, hreach, hstuck⟩ := h
    rcases reaches_wellFormed hreach (Or.inr he) with hmarker | hwell
    · exact ⟨p', hmarker ▸ hreach⟩
    · have hsome := method_isSome (p := p') hwell
      rw [hstuck] at hsome
      cases hsome
  · intro h
    obtain ⟨p', hreach⟩ := h
    exact ⟨(p', .valueMarker), hreach, rfl⟩

/-- Every question about the expression is answered, and what is answered holds of its runs. -/
def Analyzed (e : Expr) : Prop :=
  ∀ p, ∃ b, analysis p e = some b ∧
    (b = true → ∀ {Env Memory : Type} (R : RunTime Env Memory) (depth : Nat) (env : Env) (s s' : Machine Memory)
      (v : Value Env), eval R depth env e s = some (v, s') → Means s s' v p)

/-- A run time without variables, with `not` and a predicate that is never true. -/
def bareRunTime : RunTime Unit Unit where
  lookup _ _ _ := none
  symbolValue _ _ _ := none
  assign _ _ _ _ := none
  define _ _ _ _ := none
  bind env required _ _ vs m := if vs.length = required.length then some (env, m) else none
  scan env _ m := some (env, m)
  primitive p vs m :=
    if p = ucodeNot then
      match vs with
      | [v] => some (if v.isFalse then .true else .false, m)
      | _ => none
    else some (.false, m)
  applyOther _ _ _ := none
  not_value h := (Prod.mk.inj (Option.some.inj h)).1.symm
  predicate_value := by
    intro p vs w m m' _ h
    split at h
    · split at h
      · cases h
        split
        · exact Or.inr rfl
        · exact Or.inl rfl
      · cases h
    · cases h
      exact Or.inl rfl

/-- The call of `(lambda () (not 7))`. -/
def notCall : Expr :=
  .combination ⟨true, [], []⟩
    (.procedure ⟨true, [], []⟩ (.interned "lambda") [] [] none
      (.combination ⟨true, [], []⟩ (.constant (.primitive ucodeNot)) [.constant (.other 7)])) []

/-- The body of `(lambda () (define x 1))`, with its definition scanned out. -/
def definitionBody : List BodyAction :=
  [{ assigned := some (.interned "x", .constant (.other 1)),
     expression := .assignment ⟨true, [], [0]⟩ 0 (.constant (.other 1)) }]

/-- The call of `(lambda () (define x 1))`. -/
def definitionCall : Expr :=
  .combination ⟨true, [], []⟩
    (.procedure ⟨true, [], []⟩ (.interned "lambda") [] [] none
      (.openBlock ⟨true, [], [0]⟩ [0] [.constant (.other 1)] [.valueMarker])) []

end MitScheme.Sf
