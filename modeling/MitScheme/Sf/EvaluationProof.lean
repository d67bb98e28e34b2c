import MitScheme.Sf.Evaluation

/-!
# Runs of the nodes

How a run of each node that returns a value goes through its parts.
-/

namespace MitScheme.Sf

namespace Run

variable {Memory α β : Type} {s : Machine Memory}

theorem bind_eq_some {x : Run Memory α} {f : α → Run Memory β} {r : β × Machine Memory} :
    (x >>= f) s = some r ↔ ∃ a s₁, x s = some (a, s₁) ∧ f a s₁ = some r := by
  constructor
  · intro h
    obtain ⟨⟨a, s₁⟩, hx, hf⟩ := Option.bind_eq_some_iff.mp h
    exact ⟨a, s₁, hx, hf⟩
  · intro h
    obtain ⟨a, s₁, hx, hf⟩ := h
    exact Option.bind_eq_some_iff.mpr ⟨(a, s₁), hx, hf⟩

variable {a : α}

@[simp] theorem pure_eq_some {b : α} {s' : Machine Memory} :
    (pure a : Run Memory α) s = some (b, s') ↔ a = b ∧ s = s' := by
  constructor
  · intro h
    cases h
    exact ⟨rfl, rfl⟩
  · intro h
    rw [h.1, h.2]
    rfl

theorem perform_effects {f : Memory → Option (α × Memory)} {s' : Machine Memory}
    (h : perform f s = some (a, s')) : ∃ m, f s.memory = some (a, m) ∧ s'.effects = s.effects := by
  obtain ⟨⟨b, m⟩, hf, heq⟩ := Option.map_eq_some_iff.mp h
  cases heq
  exact ⟨m, hf, rfl⟩

theorem read_effects {f : Memory → Option α} {s' : Machine Memory} (h : read f s = some (a, s')) : s' = s := by
  obtain ⟨b, hf, heq⟩ := Option.map_eq_some_iff.mp h
  cases heq
  rfl

end Run

variable {Env Memory : Type} {R : RunTime Env Memory} {depth : Nat} {env : Env} {s s' : Machine Memory}
  {v : Value Env}

section

variable {block : Block} {e predicate consequent alternative operator body : Expr}

variable {name : SyntaxOutput.Symbol} {operands : List Expr}

theorem eval_access (h : eval R (depth + 1) env (.access block e name) s = some (v, s')) :
    ∃ w, eval R depth env e s = some (w, s') := by
  rw [eval, Run.bind_eq_some] at h
  obtain ⟨w, s₁, hw, h⟩ := h
  cases Run.read_effects h
  exact ⟨w, hw⟩

theorem eval_conditional
    (h : eval R (depth + 1) env (.conditional predicate consequent alternative) s = some (v, s')) :
    ∃ w s₁, eval R depth env predicate s = some (w, s₁) ∧
      (w = .false ∧ eval R depth env alternative s₁ = some (v, s') ∨
        w ≠ .false ∧ eval R depth env consequent s₁ = some (v, s')) := by
  rw [eval, Run.bind_eq_some] at h
  obtain ⟨w, s₁, hw, h⟩ := h
  refine ⟨w, s₁, hw, ?_⟩
  split at h
  · rename_i hfalse
    exact Or.inl ⟨w.isFalse_iff.mp hfalse, h⟩
  · rename_i hfalse
    exact Or.inr ⟨fun heq => hfalse (w.isFalse_iff.mpr heq), h⟩

theorem eval_disjunction (h : eval R (depth + 1) env (.disjunction predicate alternative) s = some (v, s')) :
    ∃ w s₁, eval R depth env predicate s = some (w, s₁) ∧
      (w = .false ∧ eval R depth env alternative s₁ = some (v, s') ∨ w ≠ .false ∧ v = w ∧ s' = s₁) := by
  rw [eval, Run.bind_eq_some] at h
  obtain ⟨w, s₁, hw, h⟩ := h
  refine ⟨w, s₁, hw, ?_⟩
  split at h
  · rename_i hfalse
    exact Or.inl ⟨w.isFalse_iff.mp hfalse, h⟩
  · rename_i hfalse
    obtain ⟨hv, hs⟩ := Run.pure_eq_some.mp h
    exact Or.inr ⟨fun heq => hfalse (w.isFalse_iff.mpr heq), hv.symm, hs.symm⟩

theorem eval_combination
    (h : eval R (depth + 1) env (.combination block operator operands) s = some (v, s')) :
    ∃ vs w s₁ s₂ s₃, evalOperands (eval R depth env) operands s = some (vs, s₁) ∧
      eval R depth env operator s₁ = some (w, s₂) ∧ (knownOperator operator = true → s₃ = s₂) ∧
        apply R (eval R depth) w vs s₃ = some (v, s') := by
  rw [eval, Run.bind_eq_some] at h
  obtain ⟨vs, s₁, hvs, h⟩ := h
  obtain ⟨w, s₂, hw, h⟩ := Run.bind_eq_some.mp h
  obtain ⟨u, s₃, hu, h⟩ := Run.bind_eq_some.mp h
  refine ⟨vs, w, s₁, s₂, s₃, hvs, hw, ?_, h⟩
  intro hknown
  rw [Run.noteCall, if_pos hknown] at hu
  exact (Run.pure_eq_some.mp hu).2.symm

theorem eval_constant {o : Object} (h : eval R depth env (.constant o) s = some (v, s')) : v = .object o ∧ s' = s := by
  cases depth with
  | zero => cases h
  | succ depth =>
      cases h
      exact ⟨rfl, rfl⟩

theorem eval_procedure {required optional : List Variable} {rest : Option Variable}
    (h : eval R depth env (.procedure block name required optional rest body) s = some (v, s')) :
    v = .closure block name required optional rest body env ∧ s' = s := by
  cases depth with
  | zero => cases h
  | succ depth =>
      cases h
      exact ⟨rfl, rfl⟩

theorem eval_let {required optional : List Variable} {rest : Option Variable} {inner : Block}
    (h : eval R (depth + 1) env
      (.combination block (.procedure inner name required optional rest body) operands) s = some (v, s')) :
    ∃ vs s₁ s₂ env', evalOperands (eval R depth env) operands s = some (vs, s₁) ∧ s₂.effects = s₁.effects ∧
      eval R depth env' body s₂ = some (v, s') := by
  obtain ⟨vs, w, s₁, s₂, s₃, hvs, hw, hknown, h⟩ := eval_combination h
  obtain ⟨hclosure, hs⟩ := eval_procedure hw
  rw [hclosure, hknown rfl, hs, apply, Run.bind_eq_some] at h
  obtain ⟨env', s₄, hbind, h⟩ := h
  obtain ⟨m, -, heffects⟩ := Run.perform_effects hbind
  exact ⟨vs, s₁, s₄, env', hvs, heffects, h⟩

theorem eval_primitive {p : Primitive}
    (h : eval R (depth + 1) env (.combination block (.constant (.primitive p)) operands) s = some (v, s')) :
    ∃ vs s₁ m m', evalOperands (eval R depth env) operands s = some (vs, s₁) ∧ R.primitive p vs m = some (v, m') ∧
      (p.name ∈ effectFreePrimitives → s'.effects = s₁.effects) := by
  obtain ⟨vs, w, s₁, s₂, s₃, hvs, hw, hknown, h⟩ := eval_combination h
  obtain ⟨hconstant, hs⟩ := eval_constant hw
  rw [hconstant] at h
  obtain ⟨m, hprimitive, heffects⟩ := Run.perform_effects h
  refine ⟨vs, s₁, s₃.memory, m, hvs, hprimitive, ?_⟩
  intro hmem
  rw [heffects, hknown (List.contains_iff_mem.mpr hmem), hs]

end

theorem evalOperands_singleton {run : Expr → Run Memory (Value Env)} {operand : Expr} {vs : List (Value Env)}
    (h : evalOperands run [operand] s = some (vs, s')) : ∃ w, run operand s = some (w, s') ∧ vs = [w] := by
  have h : (run operand >>= fun w => pure [w]) s = some (vs, s') := h
  obtain ⟨w, s₂, hw, h⟩ := Run.bind_eq_some.mp h
  obtain ⟨hvs, rfl⟩ := Run.pure_eq_some.mp h
  exact ⟨w, hw, hvs.symm⟩

/-- Runs of the expression have no effects. -/
def Effectless (run : Expr → Run Memory (Value Env)) (e : Expr) : Prop :=
  ∀ {s s' v}, run e s = some (v, s') → s'.effects = s.effects

variable {run : Expr → Run Memory (Value Env)}

theorem evalSequence_concat {init : List Expr} {last : Expr}
    (h : evalSequence run (init ++ [last]) s = some (v, s')) :
    ∃ s₁, ((∀ e ∈ init, Effectless run e) → s₁.effects = s.effects) ∧ run last s₁ = some (v, s') := by
  induction init generalizing s with
  | nil => exact ⟨s, fun _ => rfl, h⟩
  | cons first init ih =>
      have hstep : ∃ w s₁, run first s = some (w, s₁) ∧ evalSequence run (init ++ [last]) s₁ = some (v, s') := by
        cases init with
        | nil | cons action init => exact Run.bind_eq_some.mp h
      obtain ⟨w, s₁, hw, hrest⟩ := hstep
      obtain ⟨s₂, heffects, hlast⟩ := ih hrest
      refine ⟨s₂, ?_, hlast⟩
      intro hinit
      calc s₂.effects = s₁.effects := heffects fun e he => hinit e (List.mem_cons_of_mem first he)
        _ = s.effects := hinit first List.mem_cons_self hw

theorem evalAction_value {vars : List Variable} {values : List Expr}
    {action : Expr} {r : Value Env × List Variable × List Expr}
    (h : evalAction R run env vars values action s = some (r, s')) (hmarker : action ≠ .valueMarker) :
    ∃ s₁, run action s₁ = some (r.1, s') := by
  unfold evalAction at h
  split at h
  · exact absurd rfl hmarker
  · obtain ⟨w, s₁, hw, h⟩ := Run.bind_eq_some.mp h
    cases h
    exact ⟨s, hw⟩

theorem evalBlock_last {vars : List Variable} {values actions : List Expr}
    {last : Expr} (h : evalBlock R run env vars values actions s = some (v, s'))
    (hlast : actions.getLast? = some last) (hmarker : last ≠ .valueMarker) : ∃ s₁, run last s₁ = some (v, s') := by
  induction actions generalizing vars values s with
  | nil => cases hlast
  | cons action actions ih =>
      cases actions with
      | nil =>
          cases hlast
          rw [evalBlock, Run.bind_eq_some] at h
          obtain ⟨r, s₁, hr, h⟩ := h
          cases h
          exact evalAction_value hr hmarker
      | cons next actions =>
          rw [evalBlock, Run.bind_eq_some] at h
          obtain ⟨r, s₁, -, h⟩ := h
          exact ih h hlast

theorem evalOperands_effects {operands : List Expr} {vs : List (Value Env)}
    (hoperands : ∀ e ∈ operands, Effectless run e) (h : evalOperands run operands s = some (vs, s')) :
    s'.effects = s.effects := by
  induction operands generalizing vs s' with
  | nil =>
      cases h
      rfl
  | cons operand operands ih =>
      rw [evalOperands, Run.bind_eq_some] at h
      obtain ⟨ws, s₁, hws, h⟩ := h
      obtain ⟨w, s₂, hw, h⟩ := Run.bind_eq_some.mp h
      rw [← (Run.pure_eq_some.mp h).2]
      calc s₂.effects = s₁.effects := hoperands operand List.mem_cons_self hw
        _ = s.effects := ih (fun e he => hoperands e (List.mem_cons_of_mem operand he)) hws

end MitScheme.Sf
