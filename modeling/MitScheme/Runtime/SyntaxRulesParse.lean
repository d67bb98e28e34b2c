import MitScheme.Runtime.SyntaxRulesMatch

/-!
# What `parse-pattern` finds

The sid of a pattern variable reaches exactly what the variable matched: following its
chain of controls from the outside in, binding each control to every element of its
list, and then evaluating the sid's expression gives the tree of matches. Two facts
about the chain make it usable later on: each expression of it depends on nothing but
the control before it, and a control's name determines its expression.
-/

namespace MitScheme.SyntaxRules

open List Option

variable {I A : Type}

theorem mapM_some_of_imp {α β : Type} {g h : α → Option β} :
    ∀ {l : List α} {bs : List β}, (∀ a ∈ l, ∀ b, h a = some b → g a = some b) →
      l.mapM h = some bs → l.mapM g = some bs
  | [], bs, _, hb => by simpa using hb
  | a :: l, bs, himp, hb => by
      rw [mapM_cons] at hb ⊢
      cases ha : h a with
      | none => rw [ha] at hb; cases hb
      | some b =>
          rw [ha] at hb
          cases hl : l.mapM h with
          | none => rw [hl] at hb; cases hb
          | some cs =>
              rw [hl] at hb
              rw [himp a (by simp) b ha,
                mapM_some_of_imp (fun a' ha' => himp a' (by simp [ha'])) hl]
              exact hb

theorem mapM_congr_mem {α β : Type} {g h : α → Option β} {l : List α}
    (heq : ∀ a ∈ l, g a = h a) : l.mapM g = l.mapM h := by
  induction l with
  | nil => rfl
  | cons a l ih =>
      rw [mapM_cons, mapM_cons, heq a (by simp),
        ih (fun a' ha' => heq a' (by simp [ha']))]

theorem mapM_isSome {α β : Type} {h : α → Option β} {l : List α}
    (hs : ∀ a ∈ l, (h a).isSome) : (l.mapM h).isSome := by
  induction l with
  | nil => rfl
  | cons a l ih =>
      rw [mapM_cons]
      obtain ⟨b, hb⟩ := isSome_iff_exists.mp (hs a (by simp))
      obtain ⟨bs, hbs⟩ := isSome_iff_exists.mp (ih (fun a' ha' => hs a' (by simp [ha'])))
      rw [hb, hbs]
      rfl

theorem listAll_toList {p : Form I A → Bool} : ∀ {f : Form I A}, f.listAll p = true →
    ∃ fs, f.toList = some fs ∧ ∀ g ∈ fs, p g = true
  | .nil, _ => ⟨[], rfl, by simp⟩
  | .pair a d, h => by
      rw [Form.listAll, Bool.and_eq_true] at h
      obtain ⟨fs, hfs, hall⟩ := listAll_toList h.2
      refine ⟨a :: fs, by rw [Form.toList, hfs]; rfl, ?_⟩
      intro g hg
      rcases mem_cons.mp hg with rfl | hg
      · exact h.1
      · exact hall g hg
  | .ident _, h => by cases h
  | .atom _, h => by cases h

variable [DecidableEq I] [DecidableEq A]
variable {isEllipsis : I → Bool} {keywords : List I} {expander : Expander I} {fuel : Nat}

variable {p q : Form I A} {e : Code I A} {env env' : Env I A} {above : List Nat}
  {control inner : List (Control I A)} {n : Nat} {sid : Sid I A} {v : I}

theorem matchesP_ellipsis {f : Form I A} (hell : ellipsisP isEllipsis (.pair p q) = true)
    (h : matchesP isEllipsis keywords expander (.pair p q) f = true) :
    ∃ fs, f.toList = some fs ∧ ∀ g ∈ fs, matchesP isEllipsis keywords expander p g = true := by
  rw [matchesP.eq_def] at h
  dsimp only at h
  rw [if_pos hell] at h
  exact listAll_toList h

theorem matchesP_pair {f : Form I A} (hell : ¬ ellipsisP isEllipsis (.pair p q) = true)
    (h : matchesP isEllipsis keywords expander (.pair p q) f = true) :
    ∃ a d, f = .pair a d ∧ matchesP isEllipsis keywords expander p a = true
      ∧ matchesP isEllipsis keywords expander q d = true := by
  rw [matchesP.eq_def] at h
  dsimp only at h
  rw [if_neg hell] at h
  cases f with
  | pair a d =>
      rw [Bool.and_eq_true] at h
      exact ⟨a, d, rfl, h.1, h.2⟩
  | ident _ | atom _ | nil => cases h

theorem enclosing_isSome : ∀ (p : Form I A) (n m : Nat) (v : I),
    (enclosing isEllipsis keywords p n v).isSome = (enclosing isEllipsis keywords p m v).isSome
  | .ident i, n, m, v => by rw [enclosing, enclosing]
  | .pair p q, n, m, v => by
      rw [enclosing, enclosing]
      split
      · rw [isSome_map, isSome_map]
        exact enclosing_isSome p _ _ v
      · rw [isSome_or, isSome_or, enclosing_isSome p _ (m + _) v,
          enclosing_isSome q _ m v]
  | .nil, _, _, _ => by simp [enclosing]
  | .atom _, _, _, _ => by simp [enclosing]

theorem matched_isSome : ∀ (p f : Form I A) (v : I),
    matchesP isEllipsis keywords expander p f = true →
    (matched isEllipsis keywords p f v).isSome = (enclosing isEllipsis keywords p 0 v).isSome
  | .ident i, f, v, _ => by
      rw [matched.eq_def, enclosing]
      dsimp only
      split <;> rfl
  | .pair p q, f, v, h => by
      rw [matched.eq_def, enclosing]
      dsimp only
      by_cases hell : ellipsisP isEllipsis (.pair p q) = true
      · obtain ⟨fs, hfs, hall⟩ := matchesP_ellipsis hell h
        rw [if_pos hell, if_pos hell, isSome_map, hfs, enclosing_isSome p (0 + 1) 0]
        by_cases hv : (enclosing isEllipsis keywords p 0 v).isSome = true
        · obtain ⟨ts, hts⟩ := isSome_iff_exists.mp
            (mapM_isSome (h := fun g => matched isEllipsis keywords p g v) (l := fs)
              (fun g hg => (matched_isSome p g v (hall g hg)).trans hv))
          simp only [hv, ↓reduceIte, bind_eq_bind, bind_some, hts]
          rfl
        · simp only [hv, Bool.false_eq_true, ↓reduceIte]
          rfl
      · obtain ⟨a, d, rfl, ha, hd⟩ := matchesP_pair hell h
        rw [if_neg hell, if_neg hell]
        rw [isSome_or, isSome_or, matched_isSome p a v ha, matched_isSome q d v hd,
          enclosing_isSome p (0 + _) 0]
  | .nil, _, _, _ | .atom _, _, _, _ => by simp [matched, enclosing]

/-! ## Chains of controls -/

/-- An expression that takes cars and cdrs of one variable. -/
inductive Rooted (x : Name) : Code I A → Prop
  | var : Rooted x (.var x)
  | car {e : Code I A} : Rooted x e → Rooted x (.app .car [e])
  | cdr {e : Code I A} : Rooted x e → Rooted x (.app .cdr [e])

/-- A chain of controls, outermost first, and an expression below it. The first control
ranges over a part of `x`, and so on. -/
def Chain (x : Name) : List (Control I A) → Code I A → Prop
  | [], e => Rooted x e
  | c :: cs, e => Rooted x c.expression ∧ Chain (.control c.name) cs e

/-- The list a control ranges over. -/
def Control.forms (expander : Expander I) (fuel : Nat) (env : Env I A) (c : Control I A) :
    Option (List (Form I A)) := do
  let v ← eval expander fuel env c.expression
  let f ← v.toForm
  f.toList

/-- The tree a chain of controls reaches. -/
def reach (expander : Expander I) (fuel : Nat) :
    Env I A → List (Control I A) → Code I A → Option (Tree I A)
  | env, [], e => do
      let v ← eval expander fuel env e
      let f ← v.toForm
      some (.leaf f)
  | env, c :: cs, e => do
      let forms ← c.forms expander fuel env
      let ts ← forms.mapM fun f => reach expander fuel (env.bind (.control c.name) f) cs e
      some (.seq ts)

theorem eval_app_congr {op : Op} (h : eval expander fuel env e = eval expander fuel env' e) :
    eval expander fuel env (.app op [e]) = eval expander fuel env' (.app op [e]) := by
  rw [eval_app, evalList_cons, h]
  rfl

theorem eval_rooted {x : Name} (h : env.value x = env'.value x) (he : Rooted x e) :
    eval expander fuel env e = eval expander fuel env' e := by
  induction he with
  | var => rw [eval_var, eval_var, h]
  | car _ ih | cdr _ ih => exact eval_app_congr ih

theorem forms_rooted {x : Name} (h : env.value x = env'.value x)
    {c : Control I A} (hc : Rooted x c.expression) :
    c.forms expander fuel env = c.forms expander fuel env' := by
  unfold Control.forms
  rw [eval_rooted h hc]

theorem reach_chain {e : Code I A} : ∀ {cs : List (Control I A)} {x : Name} {env env' : Env I A},
    Chain x cs e → env.value x = env'.value x →
    reach expander fuel env cs e = reach expander fuel env' cs e
  | [], x, env, env', hc, h => by
      rw [reach, reach, eval_rooted h hc]
  | c :: cs, x, env, env', hc, h => by
      rw [reach, reach, forms_rooted h hc.1]
      have hrec : ∀ f, reach expander fuel (env.bind (.control c.name) f) cs e
          = reach expander fuel (env'.bind (.control c.name) f) cs e :=
        fun f => reach_chain hc.2 (by rw [bind_value_self, bind_value_self])
      simp only [hrec]

/-! ## The sids of a pattern -/

theorem parsePattern_next : ∀ (p : Form I A) (e : Code I A) (sids : List (Sid I A))
    (control : List (Control I A)) (n : Nat),
    (parsePattern isEllipsis keywords p e sids control n).2 = n + ellipsisCount isEllipsis p
  | .ident i, e, sids, control, n => by
      rw [parsePattern, ellipsisCount]
      · split <;> rfl
      · intro p q h
        cases h
  | .pair p q, e, sids, control, n => by
      rw [parsePattern, ellipsisCount]
      split
      · rw [parsePattern_next]
        omega
      · rw [parsePattern_next, parsePattern_next]
        omega
  | .nil, _, _, _, _ | .atom _, _, _, _, _ => by simp [parsePattern, ellipsisCount]

theorem parsePattern_append : ∀ (p : Form I A) (e : Code I A) (sids : List (Sid I A))
    (control : List (Control I A)) (n : Nat),
    (parsePattern isEllipsis keywords p e sids control n).1
      = (parsePattern isEllipsis keywords p e [] control n).1 ++ sids
  | .ident i, e, sids, control, n => by
      rw [parsePattern, parsePattern]
      split <;> rfl
  | .pair p q, e, sids, control, n => by
      rw [parsePattern, parsePattern]
      split
      · exact parsePattern_append p _ sids _ _
      · dsimp only
        rw [parsePattern_next, parsePattern_next, parsePattern_append p _ (Prod.fst _),
          parsePattern_append q _ sids, parsePattern_append p _ (Prod.fst _) control,
          append_assoc]
  | .nil, _, _, _, _ => by simp [parsePattern]
  | .atom _, _, _, _, _ => by simp [parsePattern]

variable (isEllipsis) in
/-- The expression of the control with a given name. -/
def controlExpression : Form I A → Code I A → Nat → Nat → Option (Code I A)
  | .pair p q, e, n, k =>
      if ellipsisP isEllipsis (.pair p q) then
        if k = n then some e else controlExpression p (.var (.control n)) (n + 1) k
      else if k < n + ellipsisCount isEllipsis q then controlExpression q (.app .cdr [e]) n k
      else controlExpression p (.app .car [e]) (n + ellipsisCount isEllipsis q) k
  | _, _, _, _ => none

theorem enclosing_range : ∀ {p : Form I A} {n : Nat} {v : I} {above : List Nat},
    enclosing isEllipsis keywords p n v = some above →
    ∀ k ∈ above, n ≤ k ∧ k < n + ellipsisCount isEllipsis p
  | .ident i, n, v, above, h => by
      rw [enclosing] at h
      split at h
      · obtain rfl : [] = above := by simpa using h
        simp
      · cases h
  | .pair p q, n, v, above, h => by
      rw [enclosing] at h
      rw [ellipsisCount]
      split at h
      · rename_i hell
        rw [if_pos hell]
        obtain ⟨above', hp, rfl⟩ := map_eq_some_iff.mp h
        intro k hk
        rcases mem_cons.mp hk with rfl | hk
        · omega
        · have := enclosing_range hp k hk
          omega
      · rename_i hell
        rw [if_neg hell]
        intro k hk
        rcases or_eq_some_iff.mp h with hp | ⟨-, hq⟩
        · have := enclosing_range hp k hk
          omega
        · have := enclosing_range hq k hk
          omega
  | .nil, _, _, _, h | .atom _, _, _, _, h => by simp [enclosing] at h

/-- What is known about the sid of the variable `v` of a pattern. The controls of the
pattern's own ellipses are `inner`, innermost first. -/
structure Describes (isEllipsis : I → Bool) (keywords : List I) (pattern : Form I A)
    (expression : Code I A) (control : List (Control I A)) (next : Nat) (v : I)
    (above : List Nat) (inner : List (Control I A)) (sid : Sid I A) : Prop where
  /-- The chain of controls goes on with the ones around the pattern. -/
  controls : sid.controls = inner ++ control
  /-- Controls are named after the ellipses of the pattern. -/
  above : inner.reverse.map Control.name = above
  /-- A control's name determines its expression. -/
  expressions : ∀ c ∈ inner,
    controlExpression isEllipsis pattern expression next c.name = some c.expression
  /-- Every expression depends on the control before it only. -/
  chain : ∀ x, Rooted x expression → Chain x inner.reverse sid.expression
  /-- The sid reaches what the variable matched. -/
  tree : ∀ (expander : Expander I) (fuel : Nat) (env : Env I A) (form : Form I A),
    eval expander fuel env expression = some (.form form) →
    matchesP isEllipsis keywords expander pattern form = true →
    reach expander fuel env inner.reverse sid.expression
      = matched isEllipsis keywords pattern form v

theorem describes_ellipsis (hell : ellipsisP isEllipsis (.pair p q) = true)
    (hp : enclosing isEllipsis keywords p (n + 1) v = some above)
    (h : Describes isEllipsis keywords p (.var (.control n)) (⟨n, e⟩ :: control) (n + 1) v above
      inner sid) :
    Describes isEllipsis keywords (.pair p q) e control n v (n :: above) (inner ++ [⟨n, e⟩])
      sid := by
  have hrev : (inner ++ [(⟨n, e⟩ : Control I A)]).reverse = ⟨n, e⟩ :: inner.reverse := by simp
  refine ⟨?_, ?_, ?_, ?_, ?_⟩
  · rw [h.controls, append_assoc]
    rfl
  · rw [hrev, map_cons, h.above]
  · intro c hc
    rw [controlExpression, if_pos hell]
    rcases mem_append.mp hc with hc | hc
    · have hname : c.name ∈ above := by
        rw [← h.above, map_reverse, mem_reverse]
        exact List.mem_map_of_mem hc
      have hrange := enclosing_range hp c.name hname
      rw [if_neg (by omega)]
      exact h.expressions c hc
    · rw [mem_singleton.mp hc, if_pos rfl]
  · intro x hx
    rw [hrev]
    exact ⟨hx, h.chain _ .var⟩
  · intro expander fuel env form he hm
    obtain ⟨fs, hfs, hall⟩ := matchesP_ellipsis hell hm
    have hv : (enclosing isEllipsis keywords p 0 v).isSome = true := by
      rw [enclosing_isSome p 0 (n + 1), hp]
      rfl
    have hforms : Control.forms expander fuel env ⟨n, e⟩ = some fs := by
      unfold Control.forms
      rw [he]
      exact hfs
    rw [hrev, reach, matched.eq_def]
    dsimp only
    rw [if_pos hell, if_pos hv, hforms, hfs]
    dsimp only [bind_eq_bind, bind_some]
    rw [mapM_congr_mem (fun g hg => h.tree expander fuel _ g (by simp) (hall g hg))]

theorem describes_cdr (hell : ¬ ellipsisP isEllipsis (.pair p q) = true)
    (hp : enclosing isEllipsis keywords p (n + ellipsisCount isEllipsis q) v = none)
    (hq : enclosing isEllipsis keywords q n v = some above)
    (h : Describes isEllipsis keywords q (.app .cdr [e]) control n v above inner sid) :
    Describes isEllipsis keywords (.pair p q) e control n v above inner sid := by
  refine ⟨h.controls, h.above, ?_, fun x hx => h.chain x (.cdr hx), ?_⟩
  · intro c hc
    have hname : c.name ∈ above := by
      rw [← h.above, map_reverse, mem_reverse]
      exact List.mem_map_of_mem hc
    have hrange := enclosing_range hq c.name hname
    rw [controlExpression, if_neg hell, if_pos hrange.2]
    exact h.expressions c hc
  · intro expander fuel env form he hm
    obtain ⟨a, d, rfl, ha, hd⟩ := matchesP_pair hell hm
    have hnone : matched isEllipsis keywords p a v = none := by
      have := matched_isSome p a v ha
      rw [enclosing_isSome p 0 (n + ellipsisCount isEllipsis q), hp] at this
      exact isNone_iff_eq_none.mp (by simpa using this)
    rw [h.tree expander fuel env d (eval_app_one he) hd, matched.eq_def _ _ (.pair p q)]
    dsimp only
    rw [if_neg hell, hnone, none_or]

theorem describes_car (hell : ¬ ellipsisP isEllipsis (.pair p q) = true)
    (hp : enclosing isEllipsis keywords p (n + ellipsisCount isEllipsis q) v = some above)
    (h : Describes isEllipsis keywords p (.app .car [e]) control (n + ellipsisCount isEllipsis q)
      v above inner sid) :
    Describes isEllipsis keywords (.pair p q) e control n v above inner sid := by
  refine ⟨h.controls, h.above, ?_, fun x hx => h.chain x (.car hx), ?_⟩
  · intro c hc
    have hname : c.name ∈ above := by
      rw [← h.above, map_reverse, mem_reverse]
      exact List.mem_map_of_mem hc
    have hrange := enclosing_range hp c.name hname
    rw [controlExpression, if_neg hell, if_neg (by omega)]
    exact h.expressions c hc
  · intro expander fuel env form he hm
    obtain ⟨a, d, rfl, ha, hd⟩ := matchesP_pair hell hm
    have hsome : (matched isEllipsis keywords p a v).isSome = true := by
      rw [matched_isSome p a v ha, enclosing_isSome p 0 (n + ellipsisCount isEllipsis q), hp]
      rfl
    rw [h.tree expander fuel env a (eval_app_one he) ha, matched.eq_def _ _ (.pair p q)]
    dsimp only
    rw [if_neg hell, or_of_isSome hsome]

/-- **The sids are those of the pattern variables**, each with its description. -/
theorem parsePattern_spec : ∀ (p : Form I A) (e : Code I A) (control : List (Control I A))
    (n : Nat) (v : I),
    match enclosing isEllipsis keywords p n v with
    | none => (parsePattern isEllipsis keywords p e [] control n).1.find?
        (fun sid => sid.name = v) = none
    | some above => ∃ inner sid, (parsePattern isEllipsis keywords p e [] control n).1.find?
          (fun sid => sid.name = v) = some sid
        ∧ Describes isEllipsis keywords p e control n v above inner sid
  | .ident i, e, control, n, v => by
      rw [enclosing, parsePattern]
      by_cases hk : i ∈ keywords
      · simp [hk]
      · by_cases hv : i = v
        · subst hv
          rw [if_pos ⟨hk, rfl⟩, if_neg hk]
          refine ⟨[], ⟨i, e, control⟩, by simp, rfl, rfl, by simp, fun x hx => hx, ?_⟩
          intro expander fuel env form he _
          rw [reverse_nil, reach, he, matched.eq_def]
          dsimp only
          rw [if_pos ⟨hk, rfl⟩]
          rfl
        · simp [hk, hv]
  | .pair p q, e, control, n, v => by
      rw [enclosing, parsePattern]
      by_cases hell : ellipsisP isEllipsis (.pair p q) = true
      · simp only [hell, ↓reduceIte]
        have ih := parsePattern_spec p (.var (.control n)) (⟨n, e⟩ :: control) (n + 1) v
        cases hp : enclosing isEllipsis keywords p (n + 1) v with
        | none =>
            rw [hp] at ih
            exact ih
        | some above =>
            rw [hp] at ih
            obtain ⟨inner, sid, hfind, hd⟩ := ih
            exact ⟨_, sid, hfind, describes_ellipsis hell hp hd⟩
      · simp only [hell, Bool.false_eq_true, ↓reduceIte]
        rw [parsePattern_next, parsePattern_append, List.find?_append]
        have ihp := parsePattern_spec p (.app .car [e]) control
          (n + ellipsisCount isEllipsis q) v
        have ihq := parsePattern_spec q (.app .cdr [e]) control n v
        cases hp : enclosing isEllipsis keywords p (n + ellipsisCount isEllipsis q) v with
        | some above =>
            rw [hp] at ihp
            obtain ⟨inner, sid, hfind, hd⟩ := ihp
            rw [hfind]
            exact ⟨inner, sid, rfl, describes_car hell hp hd⟩
        | none =>
            rw [hp] at ihp
            have hnone : (parsePattern isEllipsis keywords p (.app .car [e]) [] control
                (n + ellipsisCount isEllipsis q)).1.find? (fun sid => sid.name = v) = none := ihp
            rw [hnone, none_or]
            cases hq : enclosing isEllipsis keywords q n v with
            | none =>
                rw [hq] at ihq
                exact ihq
            | some above =>
                rw [hq] at ihq
                obtain ⟨inner, sid, hfind, hd⟩ := ihq
                exact ⟨inner, sid, hfind, describes_cdr hell hp hq hd⟩
  | .nil, _, _, _, _ | .atom _, _, _, _, _ => by simp [enclosing, parsePattern]

end MitScheme.SyntaxRules
