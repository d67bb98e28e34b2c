import MitScheme.Runtime.SyntaxRulesSpec

/-!
# The generated test decides matching

The test that `generate-match` writes for a pattern evaluates to true exactly on the
forms that match. The proof follows the pattern; below an ellipsis it follows the list
the generated loop walks down.
-/

namespace MitScheme.SyntaxRules

variable {I A : Type}

/-! ## Evaluating small pieces -/

variable {env : Env I A} {f : Form I A} {x : Name} {b : Bool} {e : Code I A} {op : Op}
  {p : Form I A → Bool}

@[simp] theorem bind_value_self : (env.bind x f).value x = some f := by
  simp [Env.bind]

theorem bind_value_ne {y : Name} (h : y ≠ x) : (env.bind x f).value y = env.value y := by
  simp [Env.bind, h]

variable [DecidableEq I] [DecidableEq A]
variable {isEllipsis : I → Bool} {keywords : List I} {expander : Expander I} {fuel : Nat}

@[simp] theorem eval_var :
    eval expander fuel env (.var x) = (env.value x).map .form := rfl

@[simp] theorem eval_bool :
    eval expander fuel env (.bool b) = some (.bool b) := rfl

@[simp] theorem eval_quote :
    eval expander fuel env (.quote f) = some (.form f) := rfl

@[simp] theorem eval_rename {i : I} :
    eval expander fuel env (.rename i) = some (.form (.ident (expander.rename i))) := rfl

theorem evalList_nil : evalList expander fuel env [] = some [] := rfl

theorem evalList_cons {es : List (Code I A)} :
    evalList expander fuel env (e :: es)
      = (eval expander fuel env e).bind fun v =>
          (evalList expander fuel env es).bind fun vs => some (v :: vs) := rfl

theorem eval_app {es : List (Code I A)} :
    eval expander fuel env (.app op es)
      = (evalList expander fuel env es).bind (applyOp expander op) := rfl

theorem eval_app_one {v : Value I A} (h : eval expander fuel env e = some v) :
    eval expander fuel env (.app op [e]) = applyOp expander op [v] := by
  rw [eval_app, evalList_cons, h]
  rfl

theorem eval_app_two {e' : Code I A} {v v' : Value I A}
    (h : eval expander fuel env e = some v) (h' : eval expander fuel env e' = some v') :
    eval expander fuel env (.app op [e, e']) = applyOp expander op [v, v'] := by
  rw [eval_app, evalList_cons, h, evalList_cons, h']
  rfl

theorem eval_bindTemp {body : Code I A} (h : eval expander fuel env e = some (.form f)) :
    eval expander fuel env (.bindTemp body e) = eval expander fuel (env.bind .temp f) body := by
  change (eval expander fuel env e).bind _ = _
  rw [h]
  rfl

theorem eval_cond {p c a : Code I A} (h : eval expander fuel env p = some (.bool b)) :
    eval expander fuel env (.cond p c a)
      = if b then eval expander fuel env c else eval expander fuel env a := by
  change (eval expander fuel env p).bind _ = _
  rw [h]
  cases b <;> simp

theorem eval_conjunction {c c' : Code I A} {d : Bool}
    (h : eval expander fuel env c = some (.bool b))
    (h' : b = true → eval expander fuel env c' = some (.bool d)) :
    eval expander fuel env (conjunction c c') = some (.bool (b && d)) := by
  unfold conjunction
  split
  · -- the first test is the constant `#t`
    obtain rfl : true = b := by simpa using h
    simpa using h' rfl
  · cases b with
    | false => simpa using h
    | true =>
        have ht := h' rfl
        obtain rfl : true = d := by simpa using ht
        simpa using h
  · rw [eval_cond h]
    cases b with
    | false => simp
    | true => simpa using h' rfl

/-! ## Tests -/

/-- The number of pairs in a form, which bounds the rounds of every loop over a part of it. -/
def Form.pairs : Form I A → Nat
  | .pair a d => a.pairs + d.pairs + 1
  | _ => 0

/-- The code `gen` writes decides `p`, on the forms of less than `fuel` pairs. -/
def Decides (expander : Expander I) (fuel : Nat) (gen : Code I A → Code I A)
    (p : Form I A → Bool) : Prop :=
  ∀ (e : Code I A) (env : Env I A) (f : Form I A),
    eval expander fuel env e = some (.form f) → f.pairs < fuel →
      eval expander fuel env (gen e) = some (.bool (p f))

theorem generatePair_spec {gp gq : Code I A → Code I A} {q : Form I A → Bool}
    (hp : Decides expander fuel gp p) (hq : Decides expander fuel gq q) :
    Decides expander fuel (generatePair gp gq)
      (fun f => match f with | .pair a d => p a && q d | _ => false) := by
  intro e env f he hf
  cases f with
  | pair a d =>
      have ha := hp _ _ _ ((eval_app_one he).trans rfl : eval expander fuel env (.app .car [e])
        = some (.form a)) (by simp only [Form.pairs] at hf; omega)
      have hd := hq _ _ _ ((eval_app_one he).trans rfl : eval expander fuel env (.app .cdr [e])
        = some (.form d)) (by simp only [Form.pairs] at hf; omega)
      exact eval_conjunction (b := true) (eval_app_one he)
        (fun _ => eval_conjunction ha (fun _ => hd))
  | ident i | atom a | nil => exact eval_conjunction (b := false) (d := false) (eval_app_one he) (fun h => by cases h)

theorem iterate_doList {gen : Code I A → Code I A} (hgen : Decides expander fuel gen p) :
    ∀ (f : Form I A) (rounds : Nat), f.pairs < rounds → f.pairs < fuel →
      iterate (fun loop f => eval expander fuel ({ env with loop := loop }.bind .l f)
        (.cond (.app .nullP [.var .l]) (.bool true)
          (conjunction (.app .pairP [.var .l])
            (conjunction (gen (.app .car [.var .l])) (.loop (.app .cdr [.var .l]))))))
        rounds f = some (.bool (f.listAll p)) := by
  intro f
  induction f with
  | nil =>
      intro rounds hr _
      obtain ⟨n, rfl⟩ : ∃ n, rounds = n + 1 := ⟨rounds - 1, by omega⟩
      rw [iterate, eval_cond (b := true) (eval_app_one (v := .form .nil) (by simp))]
      simp [Form.listAll]
  | ident i =>
      intro rounds hr _
      obtain ⟨n, rfl⟩ : ∃ n, rounds = n + 1 := ⟨rounds - 1, by omega⟩
      exact eval_conjunction (b := false) (d := false)
        (eval_app_one (v := .form (.ident i)) (by simp)) (fun h => by cases h)
  | atom a =>
      intro rounds hr _
      obtain ⟨n, rfl⟩ : ∃ n, rounds = n + 1 := ⟨rounds - 1, by omega⟩
      exact eval_conjunction (b := false) (d := false)
        (eval_app_one (v := .form (.atom a)) (by simp)) (fun h => by cases h)
  | pair a d _ ihd =>
      intro rounds hr hfuel
      simp only [Form.pairs] at hr hfuel
      obtain ⟨n, rfl⟩ : ∃ n, rounds = n + 1 := ⟨rounds - 1, by omega⟩
      have hrec := ihd n (by omega) (by omega)
      rw [iterate]
      generalize hloop : iterate _ n = loop at hrec ⊢
      have hl : eval expander fuel (({ env with loop := loop } : Env I A).bind .l (.pair a d))
          (.var .l) = some (.form (.pair a d)) := by simp
      have hcar : eval expander fuel (({ env with loop := loop } : Env I A).bind .l (.pair a d))
          (.app .car [.var .l]) = some (.form a) := eval_app_one hl
      have hcdr : eval expander fuel (({ env with loop := loop } : Env I A).bind .l (.pair a d))
          (.app .cdr [.var .l]) = some (.form d) := eval_app_one hl
      refine eval_conjunction (b := true) (eval_app_one hl) (fun _ => ?_)
      refine eval_conjunction (hgen _ _ _ hcar (by omega)) (fun _ => ?_)
      exact hrec

theorem doList_spec {gen : Code I A → Code I A} (hgen : Decides expander fuel gen p) :
    Decides expander fuel (doList gen) (Form.listAll p) := by
  intro e env f he hf
  change (eval expander fuel env e).bind _ = _
  rw [he]
  exact iterate_doList hgen f fuel hf hf

/-- **The generated test decides matching.** -/
theorem generateMatch_spec : ∀ (pattern : Form I A),
    Decides expander fuel (generateMatch isEllipsis keywords pattern)
      (matchesP isEllipsis keywords expander pattern)
  | .ident k => by
      intro e env f he hf
      rw [generateMatch, matchesP.eq_def]
      dsimp only
      split
      · rw [eval_bindTemp he]
        have ht : eval expander fuel (env.bind .temp f) (.var .temp) = some (.form f) := by simp
        cases f with
        | ident i =>
            rw [eval_cond (b := true) (eval_app_one ht)]
            exact eval_app_two ht eval_rename
        | pair a d | atom a | nil =>
            rw [eval_cond (b := false) (eval_app_one ht)]
            simp
      · simp
  | .pair p q => by
      intro e env f he hf
      rw [generateMatch.eq_def, matchesP.eq_def]
      dsimp only
      by_cases hell : ellipsisP isEllipsis (.pair p q) = true
      · rw [if_pos hell, if_pos hell]
        exact doList_spec (generateMatch_spec p) _ _ _ he hf
      · rw [if_neg hell, if_neg hell]
        have hpair := generatePair_spec (generateMatch_spec p) (generateMatch_spec q)
        split
        · exact hpair _ _ _ he hf
        · rw [eval_bindTemp he]
          exact hpair _ _ _ (by rfl) hf
  | .nil => by
      intro e env f he hf
      rw [matchesP.eq_def]
      exact eval_app_one he
  | .atom a => by
      intro e env f he hf
      rw [matchesP.eq_def]
      exact eval_app_two he eval_quote

end MitScheme.SyntaxRules
