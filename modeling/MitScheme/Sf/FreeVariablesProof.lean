import MitScheme.Sf.Occurrences

/-!
# When the queries for free variables agree

The first two traversals look at the parts that the analyses do not call dead, the third looks at all of them. Only
the first one looks at the values of the definitions in an open block.
-/

namespace MitScheme.Sf

open Parts List
open Or (inl inr)

section

variable {vars vars' : List Variable} {v var : Variable}

theorem mem_lsetAdjoin : v ∈ lsetAdjoin vars var ↔ v ∈ vars ∨ v = var := by
  unfold lsetAdjoin
  split
  · constructor
    · exact inl
    · intro h
      rcases h with h | rfl
      · exact h
      · assumption
  · rw [mem_cons, or_comm]

theorem mem_lsetUnion : v ∈ lsetUnion vars vars' ↔ v ∈ vars ∨ v ∈ vars' := by
  have hfold : ∀ {vars' vars : List Variable}, v ∈ vars'.foldl lsetAdjoin vars ↔ v ∈ vars ∨ v ∈ vars' := by
    intro vars'
    induction vars' with
    | nil => simp
    | cons var vars' ih =>
        intro vars
        rw [foldl_cons, ih, mem_lsetAdjoin, mem_cons, or_assoc]
  unfold lsetUnion
  split
  · rename_i hnil
    rw [List.isEmpty_iff.mp hnil]
    simp
  · split
    · rename_i hnil
      rw [List.isEmpty_iff.mp hnil]
      simp
    · exact hfold

theorem mem_lsetDifference {omitted : List Variable} : v ∈ lsetDifference vars omitted ↔ v ∈ vars ∧ v ∉ omitted := by
  simp [lsetDifference]

end

/-- The actions that are not markers of the values of definitions. -/
def notMarkers (actions : List Expr) : List Expr := actions.filter fun e => !e.isValueMarker

@[simp] theorem mem_notMarkers {e : Expr} {actions : List Expr} :
    e ∈ notMarkers actions ↔ e ∈ actions ∧ e.isValueMarker = false := by
  rw [notMarkers, mem_filter, Bool.not_eq_true']

/-! ## Collecting -/

/-- A set of variables is computed unless the computation is stuck, and tells whether the variable occurs. -/
def Collects (v : Variable) (x : Option (List Variable)) (occurs stuck : Prop) : Prop :=
  (stuck → x = none) ∧ (¬ stuck → ∃ vars, x = some vars ∧ (v ∈ vars ↔ occurs))

section

variable {v : Variable} {x y : Option (List Variable)} {occurs stuck occurs' stuck' : Prop}

theorem Collects.congr (h : Collects v x occurs stuck) (hoccurs : occurs ↔ occurs') (hstuck : stuck ↔ stuck') :
    Collects v x occurs' stuck' := by
  rw [← propext hoccurs, ← propext hstuck]
  exact h

theorem Collects.known (vars : List Variable) (h : v ∈ vars ↔ occurs) : Collects v (some vars) occurs False :=
  ⟨False.elim, fun _ => ⟨vars, rfl, h⟩⟩

theorem Collects.bind (hx : Collects v x occurs stuck) {f : List Variable → Option (List Variable)}
    (hf : ∀ vars, (v ∈ vars ↔ occurs) → Collects v (f vars) occurs' stuck') :
    Collects v (x.bind f) occurs' (stuck ∨ stuck') := by
  by_cases hstuck : stuck
  · rw [hx.1 hstuck]
    exact ⟨fun _ => rfl, fun h => absurd (inl hstuck) h⟩
  · obtain ⟨vars, rfl, hvars⟩ := hx.2 hstuck
    have hf := hf vars hvars
    refine ⟨fun h => hf.1 (h.resolve_left hstuck), fun h => hf.2 fun h' => h (inr h')⟩

theorem Collects.map (hx : Collects v x occurs stuck) {f : List Variable → List Variable}
    (hf : ∀ vars, (v ∈ vars ↔ occurs) → (v ∈ f vars ↔ occurs')) :
    Collects v (x.bind fun vars => some (f vars)) occurs' stuck := by
  refine ⟨fun h => by rw [hx.1 h]; rfl, fun h => ?_⟩
  obtain ⟨vars, rfl, hvars⟩ := hx.2 h
  exact ⟨f vars, rfl, hf vars hvars⟩

theorem Collects.union (hx : Collects v x occurs stuck) (hy : Collects v y occurs' stuck') :
    Collects v (x.bind fun vars => y.bind fun vars' => some (lsetUnion vars vars')) (occurs ∨ occurs')
      (stuck ∨ stuck') := by
  refine hx.bind fun vars hvars => ?_
  refine (hy.map (f := lsetUnion vars) fun vars' hvars' => ?_)
  rw [mem_lsetUnion, hvars, hvars']

theorem Collects.unionTwo {z : Option (List Variable)} {occurs'' stuck'' : Prop} (hx : Collects v x occurs stuck)
    (hy : Collects v y occurs' stuck') (hz : Collects v z occurs'' stuck'') :
    Collects v (x.bind fun vars => y.bind fun vars' => z.bind fun vars'' =>
      some (lsetUnion (lsetUnion vars vars') vars'')) (occurs ∨ occurs' ∨ occurs'') (stuck ∨ stuck' ∨ stuck'') := by
  refine hx.bind fun vars hvars => hy.bind fun vars' hvars' => hz.map fun vars'' hvars'' => ?_
  rw [mem_lsetUnion, mem_lsetUnion, hvars, hvars', hvars'', or_assoc]

theorem Collects.skipIf {test : Option Bool} (hx : Collects v x occurs stuck) :
    Collects v (skipIf test x) (test ≠ some true ∧ occurs)
      (test = none ∨ test ≠ some true ∧ stuck) := by
  cases test with
  | none => exact ⟨fun _ => rfl, fun h => absurd (inl rfl) h⟩
  | some b =>
      cases b with
      | false => exact hx.congr (by simp) (by simp)
      | true => exact (Collects.known [] (by simp)).congr Iff.rfl (by simp)

theorem expressionsFreeVariables_collects {es : List Expr} (answer : List Variable) {occurs stuck : Expr → Prop}
    (h : ∀ e ∈ es, Collects v (freeVariables e) (occurs e) (stuck e)) :
    Collects v (expressionsFreeVariables answer es) (v ∈ answer ∨ ∃ e ∈ es, occurs e) (∃ e ∈ es, stuck e) := by
  induction es generalizing answer with
  | nil => exact (Collects.known _ (by simp)).congr Iff.rfl (by simp)
  | cons e es ih =>
      obtain ⟨he, hes⟩ := forall_mem_cons.mp h
      rw [expressionsFreeVariables]
      refine (he.bind fun vars hvars => (ih (lsetUnion answer vars) hes).congr ?_ Iff.rfl).congr
        Iff.rfl (by simp)
      rw [mem_lsetUnion, hvars, or_assoc, exists_mem_cons_iff]

theorem actionsFreeVariables_collects {actions : List Expr} {omitted : List Variable} (vars : List Variable)
    {occurs stuck : Expr → Prop} (hv : v ∉ omitted)
    (h : ∀ e ∈ actions, e.isValueMarker = false → Collects v (freeVariables e) (occurs e) (stuck e)) :
    Collects v (actionsFreeVariables omitted vars actions)
      (v ∈ vars ∨ ∃ e ∈ actions, e.isValueMarker = false ∧ occurs e)
      (∃ e ∈ actions, e.isValueMarker = false ∧ stuck e) := by
  induction actions generalizing vars with
  | nil => exact (Collects.known _ (by simp)).congr Iff.rfl (by simp)
  | cons e actions ih =>
      obtain ⟨he, hactions⟩ := forall_mem_cons.mp h
      cases hmarker : e.isValueMarker with
      | true =>
          rw [Expr.isValueMarker_iff.mp hmarker, actionsFreeVariables]
          refine (ih vars hactions).congr ?_ ?_
          · simp [Expr.isValueMarker]
          · simp [Expr.isValueMarker]
      | false =>
          have hstep : actionsFreeVariables omitted vars (e :: actions) = (freeVariables e).bind fun vars' =>
              actionsFreeVariables omitted (lsetUnion vars (lsetDifference vars' omitted)) actions := by
            cases e with
            | valueMarker => cases hmarker
            | _ => rfl
          rw [hstep]
          refine ((he hmarker).bind fun vars' hvars' => (ih (lsetUnion vars (lsetDifference vars' omitted))
            hactions).congr ?_ Iff.rfl).congr Iff.rfl (by simp [hmarker])
          rw [mem_lsetUnion, mem_lsetDifference, hvars', exists_mem_cons_iff, and_iff_left hv, or_assoc]
          simp [hmarker]

end

/-! ## What the traversals find -/

section

variable {v : Variable} {e : Expr}

theorem mentions_assignment {block : Block} {var : Variable} {value : Expr} :
    mentions v (.assignment block var value) = true ↔ v = var := by
  rw [mentions, beq_iff_eq, eq_comm]

theorem mentions_reference {block : Block} {var : Variable} : mentions v (.reference block var) = true ↔ v = var := by
  rw [mentions, beq_iff_eq, eq_comm]

theorem isSome_eq_false_iff {x : Option Bool} : x.isSome = false ↔ x = none := by
  rw [Option.isSome_eq_false_iff, Option.isNone_iff_eq_none]

theorem tested_conditional {predicate consequent alternative : Expr} :
    tested (.conditional predicate consequent alternative) = false ↔
      alwaysFalse predicate = none ∨ neverFalse predicate = none := by
  rw [tested, Bool.and_eq_false_iff, isSome_eq_false_iff, isSome_eq_false_iff]

theorem tested_disjunction {predicate alternative : Expr} :
    tested (.disjunction predicate alternative) = false ↔ neverFalse predicate = none := by
  rw [tested, isSome_eq_false_iff]

/-- **`free-variables` collects what occurs in live parts**, unless a test in such a part is an error. -/
theorem freeVariables_collects (h : Queried v e) : Collects v (freeVariables e) (Occurs true v e) (Stuck e) := by
  induction e using Expr.induct with
  | access block environment name ih | declaration declarations expression ih | delay expression ih =>
      exact (ih (h.child mem_cons_self)).congr (occurs_below rfl rfl).symm (stuck_below rfl rfl).symm
  | assignment block var value ih =>
      refine ((ih (h.child mem_cons_self)).map fun vars hvars => ?_).congr Iff.rfl ?_
      · rw [mem_lsetAdjoin, hvars, occurs_iff (e := .assignment ..), children, exists_mem_singleton, or_comm,
          mentions_assignment]
      · exact (stuck_below rfl rfl).symm
  | combination block operator operands hoperator hoperands =>
      have hrands := expressionsFreeVariables_collects [] fun e he => hoperands e he (h.operand he)
      refine ((hoperator (h.child mem_cons_self)).union hrands).congr ?_ ?_
      · rw [occurs_iff (e := .combination ..), exists_combination]
        simp [mentions]
      · rw [stuck_iff (e := .combination ..), exists_combination]
        simp [tested]
  | conditional predicate consequent alternative hpredicate hconsequent halternative =>
      have hp := hpredicate (h.child mem_cons_self)
      have hc := hconsequent (h.child (mem_cons_of_mem _ (mem_cons_self)))
      have ha := halternative (h.child (mem_cons_of_mem _ (mem_cons_of_mem _ mem_cons_self)))
      refine (Collects.unionTwo hp hc.skipIf ha.skipIf).congr ?_ ?_
      · rw [occurs_iff (e := .conditional ..), exists_conditional]
        simp [mentions]
      · rw [stuck_iff (e := .conditional ..), exists_conditional, tested_conditional]
        tauto
  | constant value | quotation block expression | theEnvironment block =>
      exact (Collects.known [] (by simp)).congr (occurs_nowhere rfl rfl).symm (stuck_nowhere rfl rfl).symm
  | disjunction predicate alternative hpredicate halternative =>
      have hp := hpredicate (h.child mem_cons_self)
      have ha := halternative (h.child (mem_cons_of_mem _ mem_cons_self))
      refine (hp.union ha.skipIf).congr ?_ ?_
      · rw [occurs_iff (e := .disjunction ..), exists_disjunction]
        simp [mentions]
      · rw [stuck_iff (e := .disjunction ..), exists_disjunction, tested_disjunction]
        tauto
  | openBlock block vars values actions hvalues hactions =>
      have hv : v ∉ block.boundVariables := of_decide_eq_false h.binds
      have hvals := expressionsFreeVariables_collects [] fun e he => hvalues e he
        (h.child (mem_append_left _ (List.mem_map_of_mem he)))
      refine (hvals.bind fun vars hvars => (actionsFreeVariables_collects (lsetDifference vars block.boundVariables) hv
        fun e he hmarker => hactions e he (h.action he hmarker)).congr ?_ Iff.rfl).congr Iff.rfl ?_
      · rw [mem_lsetDifference, hvars, occurs_iff (e := .openBlock ..), exists_openBlock]
        simp [mentions, hv]
      · rw [stuck_iff (e := .openBlock ..), exists_openBlock]
        simp [tested]
  | procedure block name required optional rest body ih =>
      have hv : v ∉ block.boundVariables := of_decide_eq_false h.binds
      refine ((ih (h.child mem_cons_self)).map fun vars hvars => ?_).congr Iff.rfl ?_
      · rw [mem_lsetDifference, hvars, occurs_iff (e := .procedure ..), children, exists_mem_singleton]
        simp [mentions, hv]
      · exact (stuck_below rfl rfl).symm
  | reference block var =>
      refine (Collects.known [var] ?_).congr Iff.rfl ?_
      · rw [occurs_leaf rfl, mentions_reference, mem_singleton]
      · exact (stuck_nowhere rfl rfl).symm
  | sequence actions ih =>
      refine (expressionsFreeVariables_collects [] fun e he => ih e he (h.child (List.mem_map_of_mem he))).congr ?_ ?_
      · rw [occurs_iff (e := .sequence ..), exists_sequence]
        simp [mentions]
      · rw [stuck_iff (e := .sequence ..), exists_sequence]
        simp [tested]
  | valueMarker => cases h.wellFormed

end

/-! ## Looking for one -/

/-- Unless the search is stuck, it tells whether the variable occurs. -/
def Decides (x : Option Bool) (occurs stuck : Prop) : Prop := ¬ stuck → ∃ b, x = some b ∧ (b = true ↔ occurs)

section

variable {x y : Option Bool} {occurs stuck occurs' stuck' : Prop}

theorem Decides.congr (h : Decides x occurs stuck) (hoccurs : occurs ↔ occurs') (hstuck : stuck → stuck') :
    Decides x occurs' stuck' := by
  intro hfree
  obtain ⟨b, hb, hiff⟩ := h fun hs => hfree (hstuck hs)
  exact ⟨b, hb, hiff.trans hoccurs⟩

theorem Decides.answer (h : Decides x occurs stuck) (hfree : ¬ stuck) (hoccurs : occurs ↔ occurs') :
    ∃ b, x = some b ∧ (b = true ↔ occurs') := by
  obtain ⟨b, hb, hiff⟩ := h hfree
  exact ⟨b, hb, hiff.trans hoccurs⟩

theorem Decides.known {b : Bool} (h : b = true ↔ occurs) : Decides (some b) occurs stuck := fun _ => ⟨b, rfl, h⟩

theorem Decides.or (hx : Decides x occurs stuck) (hy : Decides y occurs' stuck') :
    Decides (x <||> y) (occurs ∨ occurs') (stuck ∨ stuck') := by
  intro h
  obtain ⟨b, rfl, hb⟩ := hx fun hs => h (inl hs)
  obtain ⟨b', rfl, hb'⟩ := hy fun hs => h (inr hs)
  rw [← hb, ← hb']
  cases b with
  | false => exact ⟨b', rfl, by simp⟩
  | true => exact ⟨true, rfl, by simp⟩

theorem expressionsFreeVariable_decides {v : Variable} {es : List Expr} {occurs stuck : Expr → Prop}
    (h : ∀ e ∈ es, Decides (isFreeVariable v e) (occurs e) (stuck e)) :
    Decides (expressionsFreeVariable v es) (∃ e ∈ es, occurs e) (∃ e ∈ es, stuck e) := by
  induction es with
  | nil => exact .known (by simp)
  | cons e es ih =>
      obtain ⟨he, hes⟩ := forall_mem_cons.mp h
      rw [expressionsFreeVariable]
      exact (he.or (ih hes)).congr (by simp) (by simp)

theorem actionsFreeVariable_eq {v : Variable} (actions : List Expr) :
    actionsFreeVariable v actions = expressionsFreeVariable v (notMarkers actions) := by
  induction actions with
  | nil => rfl
  | cons e actions ih =>
      cases e with
      | valueMarker => exact ih
      | _ => exact congrArg _ ih

theorem actionsFreeVariable_decides {v : Variable} {actions : List Expr} {occurs stuck : Expr → Prop}
    (h : ∀ e ∈ actions, e.isValueMarker = false → Decides (isFreeVariable v e) (occurs e) (stuck e)) :
    Decides (actionsFreeVariable v actions) (∃ e ∈ actions, e.isValueMarker = false ∧ occurs e)
      (∃ e ∈ actions, e.isValueMarker = false ∧ stuck e) := by
  rw [actionsFreeVariable_eq]
  exact (expressionsFreeVariable_decides fun e he => h e (mem_notMarkers.mp he).1 (mem_notMarkers.mp he).2).congr
    (by simp [and_assoc]) (by simp [and_assoc])

end

section

variable {v : Variable} {e : Expr}

/-- **`free-variable?` looks for what occurs in live parts**, but not in the values of definitions. -/
theorem isFreeVariable_decides (h : Queried v e) :
    Decides (isFreeVariable v e) (OccursOutside true v e) (Stuck e) := by
  induction e using Expr.induct with
  | access block environment name ih
  | declaration declarations expression ih
  | delay expression ih
  | procedure block name required optional rest body ih =>
      exact (ih (h.child mem_cons_self)).congr (occursOutside_below rfl rfl).symm (stuck_below rfl rfl).mpr
  | assignment block var value ih =>
      have hassigned : Decides (some (v == var)) (v = var) False := .known beq_iff_eq
      refine (hassigned.or (ih (h.child mem_cons_self))).congr ?_ ?_
      · rw [occursOutside_iff (e := .assignment ..), children, exists_mem_singleton, mentions_assignment]
        simp
      · rw [stuck_iff (e := .assignment ..), children, exists_mem_singleton, false_or]
        exact inr
  | combination block operator operands hoperator hoperands =>
      have hrands := expressionsFreeVariable_decides fun e he => hoperands e he (h.operand he)
      refine ((hoperator (h.child mem_cons_self)).or hrands).congr ?_ ?_
      · rw [occursOutside_iff (e := .combination ..), exists_combination]
        simp [mentions]
      · rw [stuck_iff (e := .combination ..), exists_combination]
        exact inr
  | conditional predicate consequent alternative hpredicate hconsequent halternative =>
      have hp := hpredicate (h.child mem_cons_self)
      have hc := hconsequent (h.child (mem_cons_of_mem _ mem_cons_self))
      have ha := halternative (h.child (mem_cons_of_mem _ (mem_cons_of_mem _ mem_cons_self)))
      intro hfree
      rw [stuck_iff, exists_conditional, tested_conditional] at hfree
      rw [occursOutside_iff, exists_conditional, isFreeVariable]
      obtain ⟨always, halways⟩ := Option.ne_none_iff_exists'.mp fun hn => hfree (inl (inl hn))
      obtain ⟨never, hnever⟩ := Option.ne_none_iff_exists'.mp fun hn => hfree (inl (inr hn))
      rw [halways, hnever] at hfree ⊢
      -- The branches that are looked at are the live ones, since a predicate is not both.
      cases always with
      | true =>
          cases never with
          | true => exact absurd hnever (alwaysFalse_exclusive predicate halways)
          | false =>
              exact (hp.or ha).answer (fun hs => hfree (inr (by simpa using hs))) (by simp [mentions])
      | false =>
          cases never with
          | true =>
              exact (hp.or hc).answer (fun hs => hfree (inr (by simpa using hs))) (by simp [mentions])
          | false =>
              exact (hp.or (hc.or ha)).answer (fun hs => hfree (inr (by simpa using hs))) (by simp [mentions])
  | constant value
  | quotation block expression
  | theEnvironment block => exact .known ((occursOutside_nowhere rfl rfl).trans (by simp)).symm
  | disjunction predicate alternative hpredicate halternative =>
      have hp := hpredicate (h.child mem_cons_self)
      have ha := halternative (h.child (mem_cons_of_mem _ mem_cons_self))
      intro hfree
      rw [stuck_iff, exists_disjunction, tested_disjunction] at hfree
      rw [occursOutside_iff, exists_disjunction, isFreeVariable]
      obtain ⟨never, hnever⟩ := Option.ne_none_iff_exists'.mp fun hn => hfree (inl hn)
      rw [hnever] at hfree ⊢
      cases never with
      | true =>
          have hskipped : Decides (some false) False False := .known (by simp)
          exact (hp.or hskipped).answer (fun hs => hfree (inr (by simpa using hs))) (by simp [mentions])
      | false =>
          exact (hp.or ha).answer (fun hs => hfree (inr (by simpa using hs))) (by simp [mentions])
  | openBlock block vars values actions hvalues hactions =>
      refine (actionsFreeVariable_decides fun e he hmarker => hactions e he (h.action he hmarker)).congr ?_ ?_
      · rw [occursOutside_iff (e := .openBlock ..), exists_openBlock]
        simp [mentions]
      · rw [stuck_iff (e := .openBlock ..), exists_openBlock]
        exact fun hs => inr (inr hs)
  | reference block var => exact .known (by rw [occursOutside_leaf rfl, mentions])
  | sequence actions ih =>
      have hmarkers : ∀ e ∈ actions, e.isValueMarker = false :=
        fun e he => not_isValueMarker (h.child (List.mem_map_of_mem he)).wellFormed
      refine (actionsFreeVariable_decides fun e he _ => ih e he (h.child (List.mem_map_of_mem he))).congr ?_ ?_
      · rw [occursOutside_iff (e := .sequence ..), exists_sequence]
        constructor
        · rintro ⟨e, he, -, hoccurs⟩
          exact inr ⟨e, he, rfl, hoccurs⟩
        · intro hoccurs
          obtain ⟨e, he, -, hoccurs⟩ := hoccurs.resolve_left Bool.false_ne_true
          exact ⟨e, he, hmarkers e he, hoccurs⟩
      · rw [stuck_iff (e := .sequence ..), exists_sequence]
        rintro ⟨e, he, -, hs⟩
        exact inr ⟨e, he, hs⟩
  | valueMarker => cases h.wellFormed

end

/-! ## Counting -/

/-- What a part of the count makes of what has been counted: an assignment ends the counting, and the counts grow when
the variable occurs. -/
structure Tallies (f : Info → Option Info) (occurs assigned : Prop) : Prop where
  ended : ∀ operator argument, f .assigned ≠ some (.counts operator argument)
  stopped : assigned → ∀ info operator argument, f info ≠ some (.counts operator argument)
  counted : ¬ assigned → ∀ operator argument, ∃ operator' argument', f (.counts operator argument) =
    some (.counts operator' argument') ∧ operator ≤ operator' ∧ argument ≤ argument' ∧
      (operator' = operator ∧ argument' = argument ↔ ¬ occurs)

section

variable {f g : Info → Option Info} {occurs assigned occurs' assigned' : Prop}

theorem Tallies.congr (h : Tallies f occurs assigned) (hoccurs : occurs ↔ occurs') (hassigned : assigned ↔ assigned') :
    Tallies f occurs' assigned' := by
  rw [← propext hoccurs, ← propext hassigned]
  exact h

theorem tallies_nothing : Tallies some False False where
  ended _ _ h := by cases h
  stopped h := h.elim
  counted _ operator argument := ⟨operator, argument, rfl, Nat.le_refl _, Nat.le_refl _, by simp⟩

theorem tallies_argument : Tallies Info.addArgument True False where
  ended _ _ h := by cases h
  stopped h := h.elim
  counted _ operator argument := ⟨operator, argument + 1, rfl, Nat.le_refl _, Nat.le_succ _, by simp⟩

theorem tallies_operator : Tallies Info.addOperator True False where
  ended _ _ h := by cases h
  stopped h := h.elim
  counted _ operator argument := ⟨operator + 1, argument, rfl, Nat.le_succ _, Nat.le_refl _, by simp⟩

theorem tallies_assigned : Tallies (fun _ => some .assigned) True True where
  ended _ _ h := by cases h
  stopped _ _ _ _ h := by cases h
  counted h := absurd trivial h

theorem Tallies.andThen (hf : Tallies f occurs assigned) (hg : Tallies g occurs' assigned') :
    Tallies (fun info => (f info).bind g) (occurs ∨ occurs') (assigned ∨ assigned') where
  ended operator argument := by
    cases hinfo : f .assigned with
    | none =>
        intro h
        cases h
    | some info =>
        cases info with
        | counts operator' argument' => exact absurd hinfo (hf.ended operator' argument')
        | assigned => exact hg.ended operator argument
  stopped h info operator argument := by
    cases hinfo : f info with
    | none =>
        intro h
        cases h
    | some info' =>
        cases info' with
        | assigned => exact hg.ended operator argument
        | counts operator' argument' =>
            rcases h with h | h
            · exact absurd hinfo (hf.stopped h info operator' argument')
            · exact hg.stopped h _ operator argument
  counted h operator argument := by
    obtain ⟨operator₁, argument₁, hf₁, ho₁, ha₁, hiff₁⟩ := hf.counted (fun h' => h (inl h')) operator argument
    obtain ⟨operator₂, argument₂, hg₂, ho₂, ha₂, hiff₂⟩ := hg.counted (fun h' => h (inr h')) operator₁ argument₁
    refine ⟨operator₂, argument₂, ?_, Nat.le_trans ho₁ ho₂, Nat.le_trans ha₁ ha₂, ?_⟩
    · rw [hf₁]
      exact hg₂
    · rw [not_or, ← hiff₁, ← hiff₂]
      omega

theorem expressionsFreeVariableInfo_tallies {v : Variable} {es : List Expr} {occurs assigned : Expr → Prop}
    (h : ∀ e ∈ es, Tallies (freeVariableInfoDispatch v e) (occurs e) (assigned e)) :
    Tallies (expressionsFreeVariableInfo v es) (∃ e ∈ es, occurs e) (∃ e ∈ es, assigned e) := by
  induction es with
  | nil => exact tallies_nothing.congr (by simp) (by simp)
  | cons e es ih =>
      obtain ⟨he, hes⟩ := forall_mem_cons.mp h
      exact (he.andThen (ih hes)).congr (by simp) (by simp)

theorem actionsFreeVariableInfo_eq {v : Variable} (actions : List Expr) :
    actionsFreeVariableInfo v actions = expressionsFreeVariableInfo v (notMarkers actions) := by
  induction actions with
  | nil => rfl
  | cons e actions ih =>
      cases e with
      | valueMarker => exact ih
      | _ =>
          funext info
          simp only [actionsFreeVariableInfo, ih]
          rfl

theorem actionsFreeVariableInfo_tallies {v : Variable} {actions : List Expr} {occurs assigned : Expr → Prop}
    (h : ∀ e ∈ actions, e.isValueMarker = false → Tallies (freeVariableInfoDispatch v e) (occurs e) (assigned e)) :
    Tallies (actionsFreeVariableInfo v actions) (∃ e ∈ actions, e.isValueMarker = false ∧ occurs e)
      (∃ e ∈ actions, e.isValueMarker = false ∧ assigned e) := by
  rw [actionsFreeVariableInfo_eq]
  exact (expressionsFreeVariableInfo_tallies fun e he => h e (mem_notMarkers.mp he).1 (mem_notMarkers.mp he).2).congr
    (by simp [and_assoc]) (by simp [and_assoc])

end

section

variable {v : Variable} {e : Expr}

/-- **`free-variable-info` counts every occurrence**, dead or not, but those in the values of definitions; it counts
nothing more when it has come to an assignment. -/
theorem freeVariableInfoDispatch_tallies (h : Queried v e) :
    Tallies (freeVariableInfoDispatch v e) (OccursOutside false v e) (AssignedOutside v e) := by
  induction e using Expr.induct with
  | access block environment name ih
  | declaration declarations expression ih
  | delay expression ih
  | procedure block name required optional rest body ih =>
      exact (ih (h.child mem_cons_self)).congr (occursOutside_below rfl rfl).symm
        (assignedOutside_below rfl rfl).symm
  | assignment block var value ih =>
      have hvalue := ih (h.child mem_cons_self)
      by_cases hvar : v = var
      · have hstep : freeVariableInfoDispatch v (.assignment block var value) = fun _ => some .assigned := by
          funext info
          rw [freeVariableInfoDispatch, if_pos (beq_iff_eq.mpr hvar)]
        rw [hstep]
        refine tallies_assigned.congr ?_ ?_
        · rw [occursOutside_iff, mentions_assignment]
          simp [hvar]
        · rw [assignedOutside_iff]
          simp [assigns, hvar]
      · have hstep : freeVariableInfoDispatch v (.assignment block var value) = freeVariableInfoDispatch v value := by
          funext info
          rw [freeVariableInfoDispatch, if_neg fun hbeq => hvar (beq_iff_eq.mp hbeq)]
        rw [hstep]
        refine hvalue.congr ?_ ?_
        · rw [occursOutside_iff (e := .assignment ..), mentions_assignment, children, exists_mem_singleton]
          simp [hvar]
        · rw [assignedOutside_iff (e := .assignment ..), children, exists_mem_singleton]
          simp [assigns, Ne.symm hvar]
  | combination block operator operands hoperator hoperands =>
      have hrands := expressionsFreeVariableInfo_tallies fun e he => hoperands e he (h.operand he)
      have hrator : Tallies
          (if isReference v operator then Info.addOperator else freeVariableInfoDispatch v operator)
          (OccursOutside false v operator) (AssignedOutside v operator) := by
        split
        · rename_i href
          cases operator with
          | reference block var =>
              refine tallies_operator.congr ?_ ?_
              · rw [occursOutside_leaf rfl]
                simp only [true_iff]
                exact href
              · exact (assignedOutside_nowhere rfl rfl).symm
          | _ => cases href
        · exact hoperator (h.child mem_cons_self)
      have hstep : freeVariableInfoDispatch v (.combination block operator operands) = fun info =>
          (expressionsFreeVariableInfo v operands info).bind
            (if isReference v operator then Info.addOperator else freeVariableInfoDispatch v operator) := by
        funext info
        rw [freeVariableInfoDispatch]
        split <;> rfl
      rw [hstep]
      refine (hrands.andThen hrator).congr ?_ ?_
      · rw [occursOutside_iff (e := .combination ..), exists_combination]
        simp [mentions, or_comm]
      · rw [assignedOutside_iff (e := .combination ..), exists_combination]
        simp [assigns, or_comm]
  | conditional predicate consequent alternative hpredicate hconsequent halternative =>
      have hp := hpredicate (h.child mem_cons_self)
      have hc := hconsequent (h.child (mem_cons_of_mem _ mem_cons_self))
      have ha := halternative (h.child (mem_cons_of_mem _ (mem_cons_of_mem _ mem_cons_self)))
      refine (ha.andThen (hc.andThen hp)).congr ?_ ?_
      · rw [occursOutside_iff (e := .conditional ..), exists_conditional]
        simp only [mentions, Bool.false_eq_true, false_or, false_imp_iff, true_and]
        rw [or_comm (a := OccursOutside false v alternative), or_assoc]
        exact or_left_comm
      · rw [assignedOutside_iff (e := .conditional ..), exists_conditional]
        simp only [assigns, Bool.false_eq_true, false_or, false_imp_iff, true_and]
        rw [or_comm (a := AssignedOutside v alternative), or_assoc]
        exact or_left_comm
  | constant value | quotation block expression | theEnvironment block =>
      exact tallies_nothing.congr (occursOutside_nowhere rfl rfl).symm (assignedOutside_nowhere rfl rfl).symm
  | disjunction predicate alternative hpredicate halternative =>
      have hp := hpredicate (h.child mem_cons_self)
      have ha := halternative (h.child (mem_cons_of_mem _ mem_cons_self))
      refine (ha.andThen hp).congr ?_ ?_
      · rw [occursOutside_iff (e := .disjunction ..), exists_disjunction]
        simp [mentions, or_comm]
      · rw [assignedOutside_iff (e := .disjunction ..), exists_disjunction]
        simp [assigns, or_comm]
  | openBlock block vars values actions hvalues hactions =>
      refine (actionsFreeVariableInfo_tallies fun e he hmarker => hactions e he (h.action he hmarker)).congr ?_ ?_
      · rw [occursOutside_iff (e := .openBlock ..), exists_openBlock]
        simp [mentions]
      · rw [assignedOutside_iff (e := .openBlock ..), exists_openBlock]
        simp [assigns]
  | reference block var =>
      by_cases hvar : var = v
      · have hstep : freeVariableInfoDispatch v (.reference block var) = Info.addArgument := by
          funext info
          rw [freeVariableInfoDispatch, if_pos (beq_iff_eq.mpr hvar)]
        rw [hstep]
        refine tallies_argument.congr ?_ ?_
        · rw [occursOutside_leaf rfl]
          simp [mentions, hvar]
        · exact (assignedOutside_nowhere rfl rfl).symm
      · have hstep : freeVariableInfoDispatch v (.reference block var) = some := by
          funext info
          rw [freeVariableInfoDispatch, if_neg fun hbeq => hvar (beq_iff_eq.mp hbeq)]
        rw [hstep]
        refine tallies_nothing.congr ?_ ?_
        · rw [occursOutside_leaf rfl]
          simp [mentions, hvar]
        · exact (assignedOutside_nowhere rfl rfl).symm
  | sequence actions ih =>
      refine (expressionsFreeVariableInfo_tallies fun e he => ih e he (h.child (List.mem_map_of_mem he))).congr ?_ ?_
      · rw [occursOutside_iff (e := .sequence ..), exists_sequence]
        simp [mentions]
      · rw [assignedOutside_iff (e := .sequence ..), exists_sequence]
        simp [assigns]
  | valueMarker => cases h.wellFormed

end

/-- The queries answer, `free-variable?` what `free-variables` has collected, and `free-variable-info` with counts
that are zero when the variable does not occur. -/
def QueriesAgree (v : Variable) (e : Expr) : Prop :=
  (∃ b vars, isFreeVariable v e = some b ∧ freeVariables e = some vars ∧ (b = true ↔ v ∈ vars)) ∧
    ∃ operator argument, freeVariableInfo e v = some (.counts operator argument) ∧
      (operator = 0 ∧ argument = 0 ↔ ¬ Occurs false v e)

/-- Where the queries can be relied on: the tests of live predicates have answers, the variable is not assigned, and
when it occurs in the value of a definition it also occurs elsewhere, in a live part if the first occurrence is in
one. -/
structure Agreeable (v : Variable) (e : Expr) : Prop where
  answered : ¬ Stuck e
  unassigned : ¬ AssignedOutside v e
  live : Occurs true v e → OccursOutside true v e
  outside : Occurs false v e → OccursOutside false v e

section

variable {v : Variable} {e : Expr}

/-- **The queries agree just where they can be relied on.** -/
theorem queries_agree_iff (h : Queried v e) : QueriesAgree v e ↔ Agreeable v e := by
  have hcollects := freeVariables_collects h
  have htallies := freeVariableInfoDispatch_tallies h
  constructor
  · rintro ⟨⟨b, vars, hb, hvars, hagree⟩, operator, argument, hinfo, hzero⟩
    have hstuck : ¬ Stuck e := by
      intro hstuck
      rw [hcollects.1 hstuck] at hvars
      cases hvars
    have hassigned : ¬ AssignedOutside v e := fun hassigned => htallies.stopped hassigned _ _ _ hinfo
    obtain ⟨b', hb', hfree⟩ := isFreeVariable_decides h hstuck
    obtain ⟨vars', hvars', hmem⟩ := hcollects.2 hstuck
    obtain ⟨operator', argument', hinfo', -, -, hcounts⟩ := htallies.counted hassigned 0 0
    cases hb.symm.trans hb'
    cases hvars.symm.trans hvars'
    cases hinfo.symm.trans hinfo'
    refine ⟨hstuck, hassigned, fun hoccurs => ?_, fun hoccurs => ?_⟩
    · exact hfree.mp (hagree.mpr (hmem.mpr hoccurs))
    · exact not_imp_not.mp (fun hn => hzero.mp (hcounts.mpr hn)) hoccurs
  · rintro ⟨hstuck, hassigned, hlive, houtside⟩
    obtain ⟨b, hb, hfree⟩ := isFreeVariable_decides h hstuck
    obtain ⟨vars, hvars, hmem⟩ := hcollects.2 hstuck
    obtain ⟨operator, argument, hinfo, -, -, hcounts⟩ := htallies.counted hassigned 0 0
    refine ⟨⟨b, vars, hb, hvars, ?_⟩, operator, argument, hinfo, ?_⟩
    · rw [hfree, hmem]
      exact ⟨HasOutside.has, hlive⟩
    · rw [hcounts, not_iff_not]
      exact ⟨HasOutside.has, houtside⟩

end

/-! ## An example, and where they do not agree -/

theorem unbound_iff {v : Variable} {e : Expr} : Unbound v e ↔
    binds v e = false ∧ ∀ mark c, (mark, c) ∈ children false e → Unbound v c := by
  rw [Unbound, has_iff, not_or, Bool.not_eq_true]
  refine and_congr_right fun _ => ?_
  constructor
  · intro h mark c hmem hhas
    exact h ⟨mark, c, hmem, hhas⟩
  · rintro h ⟨mark, c, hmem, hhas⟩
    exact h mark c hmem hhas

theorem unbound_leaf {v : Variable} {e : Expr} (hbinds : binds v e = false) (h : children false e = []) :
    Unbound v e := by
  refine unbound_iff.mpr ⟨hbinds, ?_⟩
  intro mark c hmem
  rw [h] at hmem
  cases hmem

/-- The call of one variable with another. -/
def variableCall : Expr :=
  .combination ⟨true, [], []⟩ (.reference ⟨true, [], []⟩ 1) [.reference ⟨true, [], []⟩ 0]

theorem queried_variableCall : Queried 0 variableCall where
  wellFormed := by decide
  unbound := by
    refine unbound_iff.mpr ⟨rfl, ?_⟩
    intro mark c hmem
    rcases mem_cons.mp hmem with heq | hmem
    · cases heq
      exact unbound_leaf rfl rfl
    · cases mem_singleton.mp hmem
      exact unbound_leaf rfl rfl

theorem agreeable_variableCall : Agreeable 0 variableCall := by
  have hoccurs : Occurs false 0 variableCall :=
    has_iff.mpr (inr ⟨false, .reference ⟨true, [], []⟩ 0, mem_cons_of_mem _ mem_cons_self,
      has_iff.mpr (inl rfl)⟩)
  refine (queries_agree_iff queried_variableCall).mp
    ⟨⟨true, [0, 1], rfl, rfl, by decide⟩, 0, 1, rfl, ?_⟩
  constructor
  · intro h
    cases h.2
  · intro h
    exact absurd hoccurs h

/-- The body of `(lambda () (define y x) y)`, for the variables 0 of `x` and 1 of `y`. -/
def definedFrom : Expr :=
  .openBlock ⟨true, [], [1]⟩ [1] [.reference ⟨true, [], []⟩ 0] [.valueMarker, .reference ⟨true, [], [1]⟩ 1]

/-- `(set! x 1)` -/
def setX : Expr := .assignment ⟨true, [], []⟩ 0 (.constant (.other 1))

theorem queried_definedFrom : Queried 0 definedFrom where
  wellFormed := by decide
  unbound := by
    refine unbound_iff.mpr ⟨by decide, ?_⟩
    intro mark c hmem
    rcases mem_cons.mp hmem with heq | hmem
    · cases heq
      exact unbound_leaf rfl rfl
    · cases mem_singleton.mp hmem
      exact unbound_leaf rfl rfl

/-- A variable in the value of a definition is collected and not found, and an assigned variable is not counted. -/
theorem definition_value_not_found : isFreeVariable 0 definedFrom = some false ∧ freeVariables definedFrom = some [0] ∧
    freeVariableInfo definedFrom 0 = some (.counts 0 0) ∧ freeVariableInfo setX 0 = some .assigned ∧
    ¬ ∀ v e, Queried v e → QueriesAgree v e := by
  refine ⟨rfl, rfl, rfl, rfl, ?_⟩
  intro h
  obtain ⟨⟨b, vars, hb, hvars, hagree⟩, -⟩ := h 0 definedFrom queried_definedFrom
  cases hb
  cases hvars
  exact absurd (hagree.mpr mem_cons_self) Bool.false_ne_true

end MitScheme.Sf
