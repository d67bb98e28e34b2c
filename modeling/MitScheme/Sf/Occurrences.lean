import MitScheme.Lib.Parts
import MitScheme.Sf.FreeVariables
import MitScheme.Sf.AnalyzeAnswers

/-!
# Occurrences of variables

Where a variable occurs in an expression, and where the traversals look for it. A part lies outside the definitions
when it is not part of the value of one.
-/

namespace MitScheme.Sf

open Parts List

/-! ## The parts that are looked at -/

/-- The parts of a node, those that are the values of definitions being marked. When only live parts are looked at,
a branch is left out that is known not to be taken. A quotation has no parts. -/
def children (live : Bool) : Expr → List (Bool × Expr)
  | .access _ environment _ => [(false, environment)]
  | .assignment _ _ value => [(false, value)]
  | .combination _ operator operands => (false, operator) :: operands.map fun e => (false, e)
  | .conditional predicate consequent alternative =>
      (false, predicate) ::
        ((if live && alwaysFalse predicate == some true then [] else [(false, consequent)]) ++
          if live && neverFalse predicate == some true then [] else [(false, alternative)])
  | .declaration _ expression => [(false, expression)]
  | .delay expression => [(false, expression)]
  | .disjunction predicate alternative =>
      (false, predicate) :: if live && neverFalse predicate == some true then [] else [(false, alternative)]
  | .openBlock _ _ values actions =>
      (values.map fun e => (true, e)) ++ (actions.filter fun e => !e.isValueMarker).map fun e => (false, e)
  | .procedure _ _ _ _ _ body => [(false, body)]
  | .sequence actions => actions.map fun e => (false, e)
  | _ => []

/-- The node refers to the variable or assigns it. -/
def mentions (var : Variable) : Expr → Bool
  | .reference _ var' => var' == var
  | .assignment _ var' _ => var' == var
  | _ => false

/-- The node assigns the variable. -/
def assigns (var : Variable) : Expr → Bool
  | .assignment _ var' _ => var' == var
  | _ => false

/-- The node binds the variable. -/
def binds (var : Variable) : Expr → Bool
  | .openBlock block _ _ _ => var ∈ block.boundVariables
  | .procedure block _ _ _ _ _ => var ∈ block.boundVariables
  | _ => false

/-- The tests of a predicate by the analyses have answers. -/
def tested : Expr → Bool
  | .conditional predicate _ _ => (alwaysFalse predicate).isSome && (neverFalse predicate).isSome
  | .disjunction predicate _ => (neverFalse predicate).isSome
  | _ => true

/-- The variable occurs somewhere. -/
def Occurs (live : Bool) (var : Variable) : Expr → Prop := Has (children live) fun e => mentions var e = true

/-- The variable occurs elsewhere than in the value of a definition. -/
def OccursOutside (live : Bool) (var : Variable) : Expr → Prop :=
  HasOutside (children live) fun e => mentions var e = true

/-- The variable is assigned elsewhere than in the value of a definition. -/
def AssignedOutside (var : Variable) : Expr → Prop := HasOutside (children false) fun e => assigns var e = true

/-- The variable is not bound by the expression or inside it. -/
def Unbound (var : Variable) (e : Expr) : Prop := ¬ Has (children false) (fun e => binds var e = true) e

/-- A live part is tested without an answer. -/
def Stuck : Expr → Prop := Has (children true) fun e => tested e = false

section

variable {live : Bool} {Q : Bool → Expr → Prop}

theorem exists_mem_map {mark : Bool} {es : List Expr} :
    (∃ mark' c, (mark', c) ∈ (es.map fun e => (mark, e)) ∧ Q mark' c) ↔ ∃ e ∈ es, Q mark e := by
  constructor
  · rintro ⟨mark', c, hmem, hQ⟩
    obtain ⟨e, he, heq⟩ := List.mem_map.mp hmem
    obtain ⟨rfl, rfl⟩ := Prod.mk.inj heq
    exact ⟨e, he, hQ⟩
  · rintro ⟨e, he, hQ⟩
    exact ⟨mark, e, List.mem_map.mpr ⟨e, he, rfl⟩, hQ⟩

theorem exists_mem_cons {mark : Bool} {e : Expr} {rest : List (Bool × Expr)} :
    (∃ mark' c, (mark', c) ∈ (mark, e) :: rest ∧ Q mark' c) ↔
      Q mark e ∨ ∃ mark' c, (mark', c) ∈ rest ∧ Q mark' c := by
  constructor
  · rintro ⟨mark', c, hmem, hQ⟩
    rcases mem_cons.mp hmem with heq | hmem
    · cases heq
      exact Or.inl hQ
    · exact Or.inr ⟨mark', c, hmem, hQ⟩
  · intro h
    rcases h with hQ | ⟨mark', c, hmem, hQ⟩
    · exact ⟨mark, e, mem_cons_self, hQ⟩
    · exact ⟨mark', c, mem_cons_of_mem _ hmem, hQ⟩

theorem exists_mem_append {l l' : List (Bool × Expr)} :
    (∃ mark c, (mark, c) ∈ l ++ l' ∧ Q mark c) ↔
      (∃ mark c, (mark, c) ∈ l ∧ Q mark c) ∨ ∃ mark c, (mark, c) ∈ l' ∧ Q mark c := by
  simp only [mem_append, or_and_right, exists_or]

theorem exists_mem_unless {test : Option Bool} {mark : Bool} {e : Expr} :
    (∃ mark' c, (mark', c) ∈ (if live && test == some true then [] else [(mark, e)]) ∧ Q mark' c) ↔
      (live = true → test ≠ some true) ∧ Q mark e := by
  cases live with
  | false => simp
  | true =>
      by_cases h : test = some true
      · simp [h]
      · simp [h]

theorem exists_mem_singleton {mark : Bool} {e : Expr} :
    (∃ mark' c, (mark', c) ∈ [(mark, e)] ∧ Q mark' c) ↔ Q mark e := by
  simp

variable {block : Block} {predicate consequent alternative operator : Expr} {vars : List Variable}
  {values actions operands : List Expr}

theorem exists_combination : (∃ mark c, (mark, c) ∈ children live (.combination block operator operands) ∧ Q mark c) ↔
    Q false operator ∨ ∃ e ∈ operands, Q false e := by
  rw [children, exists_mem_cons, exists_mem_map]

theorem exists_conditional :
    (∃ mark c, (mark, c) ∈ children live (.conditional predicate consequent alternative) ∧ Q mark c) ↔
      Q false predicate ∨ (live = true → alwaysFalse predicate ≠ some true) ∧ Q false consequent ∨
        (live = true → neverFalse predicate ≠ some true) ∧ Q false alternative := by
  rw [children, exists_mem_cons, exists_mem_append, exists_mem_unless, exists_mem_unless]

theorem exists_disjunction : (∃ mark c, (mark, c) ∈ children live (.disjunction predicate alternative) ∧ Q mark c) ↔
    Q false predicate ∨ (live = true → neverFalse predicate ≠ some true) ∧ Q false alternative := by
  rw [children, exists_mem_cons, exists_mem_unless]

theorem exists_openBlock :
    (∃ mark c, (mark, c) ∈ children live (.openBlock block vars values actions) ∧ Q mark c) ↔
      (∃ e ∈ values, Q true e) ∨ ∃ e ∈ actions, e.isValueMarker = false ∧ Q false e := by
  rw [children, exists_mem_append, exists_mem_map, exists_mem_map]
  simp only [mem_filter, Bool.not_eq_true', and_assoc]

theorem exists_sequence : (∃ mark c, (mark, c) ∈ children live (.sequence actions) ∧ Q mark c) ↔
    ∃ e ∈ actions, Q false e := by
  rw [children, exists_mem_map]

end

theorem last_exclusive {actions : List Expr}
    (ih : ∀ e ∈ actions, alwaysFalse e = some true → neverFalse e ≠ some true)
    (h : lastAlwaysFalse actions = some true) : lastNeverFalse actions ≠ some true := by
  intro hn
  rw [lastAlwaysFalse_eq] at h
  rw [lastNeverFalse_eq] at hn
  obtain ⟨action, haction, h⟩ := Option.bind_eq_some_iff.mp h
  rw [haction] at hn
  exact ih action (List.mem_of_getLast? haction) h hn

theorem alwaysFalse_exclusive (e : Expr) : alwaysFalse e = some true → neverFalse e ≠ some true := by
  induction e using parts_induct with
  | h e ih =>
      intro h hn
      cases e with
      | combination block operator operands =>
          rw [alwaysFalse_combination] at h
          rw [neverFalse_combination] at hn
          unfold truthOfCall at h hn
          split at h
          · rename_i hnot
            rw [if_pos hnot] at hn
            cases operands with
            | nil => cases h
            | cons operand operands =>
                exact ih operand (operands_subset block operator _ mem_cons_self) hn h
          · cases operator with
            | procedure inner name required optional rest body => exact ih body mem_cons_self h hn
            | _ => cases h
      | conditional predicate consequent alternative =>
          have hp := ih predicate (by simp [parts])
          have hc := ih consequent (by simp [parts])
          have ha := ih alternative (by simp [parts])
          obtain ⟨h₁, h₂⟩ := and_eq_true.mp h
          obtain ⟨hn₁, hn₂⟩ := and_eq_true.mp hn
          -- One of the branches is taken, and would be both.
          by_cases halways : alwaysFalse predicate = some true
          · have hnever := hp halways
            exact ha ((or_true h₂).resolve_left hnever) ((or_true hn₂).resolve_left hnever)
          · exact hc ((or_true h₁).resolve_left halways) ((or_true hn₁).resolve_left halways)
      | constant value =>
          exact bne_iff_ne.mp (Option.some.inj hn) (beq_iff_eq.mp (Option.some.inj h))
      | declaration declarations expression => exact ih expression (by simp [parts]) h hn
      | disjunction predicate alternative =>
          obtain ⟨h₁, h₂⟩ := and_eq_true.mp h
          rcases or_true hn with hn | hn
          · exact ih predicate (by simp [parts]) h₁ hn
          · exact ih alternative (by simp [parts]) h₂ hn
      | openBlock block vars values actions | sequence actions => exact last_exclusive ih h hn
      | _ => cases h

/-! ## What the traversals find -/

section

variable {live : Bool} {v : Variable} {e c : Expr}

theorem occurs_iff : Occurs live v e ↔ mentions v e = true ∨ ∃ mark c, (mark, c) ∈ children live e ∧ Occurs live v c :=
  has_iff

theorem occursOutside_iff : OccursOutside live v e ↔
    mentions v e = true ∨ ∃ mark c, (mark, c) ∈ children live e ∧ mark = false ∧ OccursOutside live v c := by
  refine hasOutside_iff.trans (or_congr_right ?_)
  constructor
  · rintro ⟨c, hmem, hc⟩
    exact ⟨false, c, hmem, rfl, hc⟩
  · rintro ⟨mark, c, hmem, rfl, hc⟩
    exact ⟨c, hmem, hc⟩

theorem assignedOutside_iff : AssignedOutside v e ↔
    assigns v e = true ∨ ∃ mark c, (mark, c) ∈ children false e ∧ mark = false ∧ AssignedOutside v c := by
  refine hasOutside_iff.trans (or_congr_right ?_)
  constructor
  · rintro ⟨c, hmem, hc⟩
    exact ⟨false, c, hmem, rfl, hc⟩
  · rintro ⟨mark, c, hmem, rfl, hc⟩
    exact ⟨c, hmem, hc⟩

theorem stuck_iff : Stuck e ↔ tested e = false ∨ ∃ mark c, (mark, c) ∈ children true e ∧ Stuck c := has_iff

theorem occurs_below (h : children live e = [(false, c)]) (hm : mentions v e = false) :
    Occurs live v e ↔ Occurs live v c := by
  rw [occurs_iff, h, hm]
  simp

theorem occursOutside_below (h : children live e = [(false, c)]) (hm : mentions v e = false) :
    OccursOutside live v e ↔ OccursOutside live v c := by
  rw [occursOutside_iff, h, hm]
  simp

theorem stuck_below (h : children true e = [(false, c)]) (ht : tested e = true) : Stuck e ↔ Stuck c := by
  rw [stuck_iff, h, ht]
  simp

theorem assignedOutside_below (h : children false e = [(false, c)]) (ha : assigns v e = false) :
    AssignedOutside v e ↔ AssignedOutside v c := by
  rw [assignedOutside_iff, h, ha]
  simp

theorem occurs_leaf (h : children live e = []) : Occurs live v e ↔ mentions v e = true := by
  rw [occurs_iff, h]
  simp

theorem occursOutside_leaf (h : children live e = []) : OccursOutside live v e ↔ mentions v e = true := by
  rw [occursOutside_iff, h]
  simp

theorem occurs_nowhere (h : children live e = []) (hm : mentions v e = false) : Occurs live v e ↔ False := by
  rw [occurs_leaf h, hm]
  simp

theorem occursOutside_nowhere (h : children live e = []) (hm : mentions v e = false) :
    OccursOutside live v e ↔ False := by
  rw [occursOutside_leaf h, hm]
  simp

theorem stuck_nowhere (h : children true e = []) (ht : tested e = true) : Stuck e ↔ False := by
  rw [stuck_iff, h, ht]
  simp

theorem assignedOutside_nowhere (h : children false e = []) (ha : assigns v e = false) :
    AssignedOutside v e ↔ False := by
  rw [assignedOutside_iff, h, ha]
  simp

theorem child_wellFormed {mark : Bool} (he : wellFormed e = true) (hc : (mark, c) ∈ children false e) :
    wellFormed c = true := by
  have h : ∃ mark' c', (mark', c') ∈ children false e ∧ c' = c := ⟨mark, c, hc, rfl⟩
  cases e with
  | access block environment name
  | assignment block var value
  | declaration declarations expression
  | delay expression
  | procedure block name required optional rest body =>
      rw [children, exists_mem_singleton] at h
      exact h ▸ he
  | combination block operator operands =>
      rw [exists_combination] at h
      rw [wellFormed, Bool.and_eq_true, everyWellFormed_iff] at he
      rcases h with rfl | ⟨e, hmem, rfl⟩
      · exact he.1
      · exact he.2 e hmem
  | conditional predicate consequent alternative =>
      rw [exists_conditional] at h
      rw [wellFormed, Bool.and_eq_true, Bool.and_eq_true] at he
      rcases h with rfl | ⟨-, rfl⟩ | ⟨-, rfl⟩
      · exact he.1.1
      · exact he.1.2
      · exact he.2
  | disjunction predicate alternative =>
      rw [exists_disjunction] at h
      rw [wellFormed, Bool.and_eq_true] at he
      rcases h with rfl | ⟨-, rfl⟩
      · exact he.1
      · exact he.2
  | openBlock block vars values actions =>
      rw [exists_openBlock] at h
      simp only [wellFormed, Bool.and_eq_true, actionsWellFormed_iff, everyWellFormed_iff] at he
      rcases h with ⟨e, hmem, rfl⟩ | ⟨e, hmem, hmarker, rfl⟩
      · exact he.1.1.2 e hmem
      · refine (he.1.1.1.2 e hmem).resolve_left ?_
        rintro rfl
        cases hmarker
  | sequence actions =>
      rw [exists_sequence] at h
      rw [wellFormed, Bool.and_eq_true, everyWellFormed_iff] at he
      obtain ⟨e, hmem, rfl⟩ := h
      exact he.2 e hmem
  | _ => cases hc

/-- What holds of the expressions that the claim is about: they are well formed and do not bind the variable. -/
structure Queried (v : Variable) (e : Expr) : Prop where
  wellFormed : wellFormed e = true
  unbound : Unbound v e

theorem Queried.child {mark : Bool} (h : Queried v e) (hc : (mark, c) ∈ children false e) : Queried v c where
  wellFormed := child_wellFormed h.wellFormed hc
  unbound := fun hhas => h.unbound (has_iff.mpr (Or.inr ⟨mark, c, hc, hhas⟩))

section

variable {block : Block} {vars : List Variable} {operator : Expr} {values actions operands : List Expr}

theorem Queried.operand (h : Queried v (.combination block operator operands)) (he : e ∈ operands) : Queried v e :=
  h.child (mem_cons_of_mem _ (List.mem_map_of_mem he))

theorem Queried.action (h : Queried v (.openBlock block vars values actions)) (he : e ∈ actions)
    (hmarker : e.isValueMarker = false) : Queried v e := by
  refine h.child (mem_append_right _ (List.mem_map_of_mem (mem_filter.mpr ⟨he, ?_⟩)))
  rw [hmarker]
  rfl

end

theorem Queried.binds (h : Queried v e) : binds v e = false :=
  Bool.eq_false_iff.mpr fun hbinds => h.unbound (has_iff.mpr (Or.inl hbinds))

end

end MitScheme.Sf
