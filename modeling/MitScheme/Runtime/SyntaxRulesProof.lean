import MitScheme.Runtime.SyntaxRulesOutput

/-!
# `syntax-rules` expands by its clauses

The code generated for a template evaluates to the instantiated template, and so the
transformer does what its clauses say, provided it is generated at all. That is where
the code falls short of its purpose: `add-control!` rejects a template in which a
variable comes back below an ellipsis after a variable of another one, as in
`((a b a) ...)`.
-/

namespace MitScheme.SyntaxRules

open List Option
open Form (cddr ofList)

variable {I A : Type}

/-! ## Sequences -/

theorem mapM_eq_some {α β : Type} {h : α → Option β} : ∀ {l : List α} {bs : List β},
    l.mapM h = some bs → bs.length = l.length ∧ ∀ (j : Nat) a, l[j]? = some a → h a = bs[j]?
  | [], bs, hb => by
      obtain rfl : bs = [] := by simpa using hb
      exact ⟨rfl, by simp⟩
  | a :: l, bs, hb => by
      rw [mapM_cons] at hb
      cases ha : h a with
      | none => rw [ha] at hb; cases hb
      | some b =>
          rw [ha] at hb
          cases hl : l.mapM h with
          | none => rw [hl] at hb; cases hb
          | some cs =>
              rw [hl] at hb
              obtain rfl : b :: cs = bs := by simpa using hb
              obtain ⟨hlen, hget⟩ := mapM_eq_some hl
              refine ⟨by rw [length_cons, length_cons, hlen], ?_⟩
              intro j a' hj
              cases j with
              | zero =>
                  obtain rfl : a = a' := by simpa using hj
                  simpa using ha
              | succ j => exact hget j a' (by simpa using hj)

theorem mapM_some_eq {α β : Type} {g : α → β} : ∀ {l : List α},
    (l.mapM fun a => some (g a)) = some (l.map g)
  | [] => rfl
  | a :: l => by
      rw [mapM_cons, mapM_some_eq]
      rfl

theorem mapM_map {α β γ : Type} {f : α → β} {h : β → Option γ} : ∀ {l : List α},
    (l.map f).mapM h = l.mapM fun a => h (f a)
  | [] => rfl
  | a :: l => by rw [map_cons, mapM_cons, mapM_cons, mapM_map]

theorem range_map_getD {α : Type} {d : α} (l : List α) :
    (List.range l.length).map (fun j => l.getD j d) = l := by
  refine ext_getElem (by simp) ?_
  intro j h1 h2
  simp [h2]

variable {n level : Nat} {trees : I → Option (Tree I A)} {vs : List I} {c : Control I A}
  {forms : List (Form I A)}

theorem copies_eq (h : copies trees vs = some n) {v : I} {ts : List (Tree I A)} (hv : v ∈ vs)
    (ht : trees v = some (.seq ts)) : ts.length = n := by
  unfold copies at h
  have hmem : ts.length ∈ vs.filterMap (seqLength trees) :=
    mem_filterMap.mpr ⟨v, hv, by rw [seqLength, ht]⟩
  split at h
  · rename_i heq
    rw [heq] at hmem
    cases hmem
  · rename_i m ms heq
    rw [heq] at hmem
    split at h
    · rename_i hall
      cases h
      rcases mem_cons.mp hmem with h' | h'
      · exact h'
      · exact hall _ h'
    · cases h

/-! ## Constructors -/

theorem toForm_eq {v : Value I A} {f : Form I A} (h : v.toForm = some f) : v = .form f := by
  cases v with
  | form g =>
      injection h with h
      rw [h]
  | bool b => cases h
  | illFormed => cases h

theorem foldr_pair_nil : ∀ l : List (Form I A), l.foldr .pair .nil = ofList l
  | [] => rfl
  | a :: l => by rw [foldr_cons, foldr_pair_nil l, ofList]

variable [DecidableEq I] {sids : List (Sid I A)}

theorem mem_controlsOf_of_level {v : I}
    (hc : levelControl sids level v = some c) : c ∈ controlsOf sids v := by
  exact mem_reverse.mp (mem_of_getElem? hc)

variable [DecidableEq A]
variable {isEllipsis : I → Bool} {keywords : List I} {expander : Expander I} {fuel : Nat}
  {pattern : Form I A} {env : Env I A}

theorem optimizedCons_spec {a d : Code I A} {fa fd : Form I A}
    (ha : eval expander fuel env a = some (.form fa))
    (hd : eval expander fuel env d = some (.form fd)) :
    eval expander fuel env (optimizedCons a d) = some (.form (.pair fa fd)) := by
  unfold optimizedCons
  split
  · cases hd
    exact eval_app_one ha
  · rename_i operands
    rw [eval_app] at hd ⊢
    cases hvs : evalList expander fuel env operands with
    | none =>
        rw [hvs] at hd
        cases hd
    | some vs =>
        rw [hvs] at hd
        change applyOp expander .list vs = _ at hd
        rw [evalList_cons, ha, hvs]
        change applyOp expander .list (.form fa :: vs) = _
        rw [applyOp, map_eq_some_iff] at hd ⊢
        obtain ⟨fs, hfs, heq⟩ := hd
        cases heq
        refine ⟨fa :: fs, ?_, rfl⟩
        rw [mapM_cons, hfs]
        rfl
  · exact eval_app_two ha hd

theorem optimizedAppend_spec {x y : Code I A} {r : Form I A}
    (hx : eval expander fuel env x = some (.form (ofList forms)))
    (hy : eval expander fuel env y = some (.form r)) :
    eval expander fuel env (optimizedAppend x y) = some (.form (forms.foldr .pair r)) := by
  unfold optimizedAppend
  split
  · cases hy
    rw [foldr_pair_nil]
    exact hx
  · rw [eval_app_two hx hy, applyOp, toList_ofList]
    rfl

/-! ## Mapping over controls -/

/-- The elements a control ranges over. -/
def Control.elements (expander : Expander I) (fuel : Nat) (env : Env I A) (c : Control I A) :
    List (Form I A) := (c.forms expander fuel env).getD []

/-- The environment of the `j`-th call of a mapped procedure. -/
def rowEnv (expander : Expander I) (fuel : Nat) (env : Env I A) (cell : List (Control I A))
    (j : Nat) : Env I A :=
  env.bindControls (cell.map Control.name)
    (cell.map fun c => (c.elements expander fuel env).getD j .nil)

/-- All controls of an ellipsis range over `n` elements. -/
def Ranges (expander : Expander I) (fuel : Nat) (env : Env I A) (cell : List (Control I A))
    (n : Nat) : Prop :=
  ∀ c ∈ cell, c.forms expander fuel env = some (c.elements expander fuel env)
    ∧ (c.elements expander fuel env).length = n

theorem eval_of_forms {fs : List (Form I A)} (h : c.forms expander fuel env = some fs) :
    eval expander fuel env c.expression = some (.form (ofList fs)) := by
  unfold Control.forms at h
  cases hv : eval expander fuel env c.expression with
  | none =>
      rw [hv] at h
      cases h
  | some v =>
      rw [hv] at h
      cases hf : v.toForm with
      | none =>
          change v.toForm.bind _ = _ at h
          rw [hf] at h
          cases h
      | some f =>
          change v.toForm.bind _ = _ at h
          rw [hf] at h
          rw [toForm_eq hf, eq_ofList h]

theorem evalList_controls {n : Nat} : ∀ {cell : List (Control I A)},
    Ranges expander fuel env cell n →
    evalList expander fuel env (cell.map Control.expression)
      = some (cell.map fun c => .form (ofList (c.elements expander fuel env)))
  | [], _ => by rw [map_nil, evalList_nil, map_nil]
  | c :: cell, h => by
      rw [map_cons, evalList_cons, eval_of_forms (h c (by simp)).1,
        evalList_controls (fun c' hc' => h c' (by simp [hc']))]
      rfl

theorem mapRows_controls {cell : List (Control I A)} (h : Ranges expander fuel env (c :: cell) n) :
    mapRows (ofList (c.elements expander fuel env))
        (cell.map fun c => ofList (c.elements expander fuel env))
      = some ((List.range n).map fun j =>
          (c :: cell).map fun c => (c.elements expander fuel env).getD j .nil) := by
  have hlen := (h c (by simp)).2
  have hrows := mapRows_ofList (c.elements expander fuel env)
    (cell.map fun c => c.elements expander fuel env) (by
      intro l hl
      obtain ⟨c', hc', rfl⟩ := List.mem_map.mp hl
      rw [(h c' (by simp [hc'])).2, hlen])
  rw [List.map_map, hlen] at hrows
  rw [show (cell.map fun c => ofList (c.elements expander fuel env))
    = cell.map (ofList ∘ fun c => c.elements expander fuel env) from rfl, hrows]
  simp only [map_cons, List.map_map]
  rfl

theorem eval_mapLambda (cell : List (Control I A)) {body : Code I A} (hne : cell ≠ []) (h : Ranges expander fuel env cell n)
    (hrows : ((List.range n).mapM fun j => do
      let v ← eval expander fuel (rowEnv expander fuel env cell j) body
      v.toForm) = some forms) :
    eval expander fuel env
        (.mapLambda (cell.map Control.name) body (cell.map Control.expression))
      = some (.form (ofList forms)) := by
  obtain ⟨c, cell, rfl⟩ := exists_cons_of_ne_nil hne
  change (evalList expander fuel env _).bind _ = _
  rw [evalList_controls h]
  simp only [bind_eq_bind, bind_some]
  rw [mapM_map]
  simp only [Value.toForm, mapM_some_eq, bind_some, map_cons, headD_cons,
    tail_cons]
  rw [mapRows_controls h, bind_some, mapM_map]
  change ((List.range n).mapM fun j => do
    let v ← eval expander fuel (rowEnv expander fuel env (c :: cell) j) body
    v.toForm).bind _ = _
  rw [hrows]
  rfl

theorem eval_mapOp {op : Op} (h : Ranges expander fuel env [c] n)
    (hrows : ((List.range n).mapM fun j => do
      let v ← eval expander fuel (rowEnv expander fuel env [c] j) (.app op [.var (.control c.name)])
      v.toForm) = some forms) :
    eval expander fuel env (.mapOp op c.expression) = some (.form (ofList forms)) := by
  have hrow : ∀ j, eval expander fuel (rowEnv expander fuel env [c] j)
      (.app op [.var (.control c.name)])
      = applyOp expander op [.form ((c.elements expander fuel env).getD j .nil)] := by
    intro j
    refine eval_app_one ?_
    rw [eval_var, rowEnv, bindControls_value (by simp) (mem_singleton_self c)]
    rfl
  simp only [hrow] at hrows
  change (eval expander fuel env c.expression).bind _ = _
  rw [eval_of_forms (h c (by simp)).1]
  simp only [bind_eq_bind, bind_some, Value.toForm]
  have hm := mapRows_controls h
  rw [map_nil] at hm
  rw [hm, bind_some, mapM_map]
  change ((List.range n).mapM fun j => do
    let v ← applyOp expander op [.form ((c.elements expander fuel env).getD j .nil)]
    v.toForm).bind _ = _
  rw [hrows]
  rfl

theorem generateEllipsis_spec {n : Nat} {cell : List (Control I A)} {body code : Code I A}
    {forms : List (Form I A)} (hcode : generateEllipsis cell body = .ok code)
    (h : Ranges expander fuel env cell n)
    (hrows : ((List.range n).mapM fun j => do
      let v ← eval expander fuel (rowEnv expander fuel env cell j) body
      v.toForm) = some forms) :
    eval expander fuel env code = some (.form (ofList forms)) := by
  unfold generateEllipsis at hcode
  split at hcode
  · cases hcode
  · rename_i c
    split at hcode
    · split at hcode
      · -- the copies are the elements themselves
        rename_i hx
        cases hcode
        subst hx
        have hrow : ∀ j, (do
            let v ← eval expander fuel (rowEnv expander fuel env [c] j) (.var (.control c.name))
            v.toForm) = some ((c.elements expander fuel env).getD j .nil) := by
          intro j
          rw [eval_var, rowEnv, bindControls_value (by simp) (mem_singleton_self c)]
          rfl
        simp only [hrow, mapM_some_eq, Option.some.injEq] at hrows
        obtain ⟨hforms, hlen⟩ := h c (by simp)
        rw [← hlen, range_map_getD] at hrows
        rw [eval_of_forms hforms, hrows]
      · cases hcode
        exact eval_mapLambda [c] (by simp) h hrows
    · split at hcode
      · rename_i hx
        cases hcode
        subst hx
        exact eval_mapOp h hrows
      · cases hcode
        exact eval_mapLambda [c] (by simp) h hrows
    · cases hcode
      exact eval_mapLambda [c] (by simp) h hrows
  · rename_i hnil _
    cases hcode
    exact eval_mapLambda _ hnil h hrows

/-! ## What the code of a template sees -/

/-- **The invariant**, at a place below `level` ellipses of the template: from the controls in
scope, every pattern variable among `vs` reaches its part of the matches. -/
def Sees (expander : Expander I) (fuel : Nat) (sids : List (Sid I A)) (env : Env I A)
    (level : Nat) (trees : I → Option (Tree I A)) (vs : List I) : Prop :=
  ∀ v ∈ vs,
    (sids.find? (fun sid => sid.name = v) = none → trees v = none)
    ∧ ∀ sid, sids.find? (fun sid => sid.name = v) = some sid →
      ∃ x tree, Chain x (sid.controls.reverse.drop level) sid.expression
        ∧ trees v = some tree
        ∧ reach expander fuel env (sid.controls.reverse.drop level) sid.expression = some tree

theorem Sees.mono (us : List I)
    (h : Sees expander fuel sids env level trees vs) (hsub : ∀ v ∈ us, v ∈ vs) :
    Sees expander fuel sids env level trees us := fun v hv => h v (hsub v hv)

theorem Sees.control {level : Nat} {trees : I → Option (Tree I A)} {vs : List I}
    (h : Sees expander fuel sids env level trees vs) {v : I} (hv : v ∈ vs) {sid : Sid I A}
    (hf : sids.find? (fun sid => sid.name = v) = some sid) {c : Control I A}
    (hc : levelControl sids level v = some c) :
    ∃ ts, trees v = some (.seq ts)
      ∧ c.forms expander fuel env = some (c.elements expander fuel env)
      ∧ (c.elements expander fuel env).mapM (fun f =>
          reach expander fuel (env.bind (.control c.name) f)
            (sid.controls.reverse.drop (level + 1)) sid.expression) = some ts
      ∧ Chain (.control c.name) (sid.controls.reverse.drop (level + 1)) sid.expression := by
  obtain ⟨x, tree, hchain, htree, hreach⟩ := (h v hv).2 sid hf
  unfold levelControl at hc
  rw [controlsOf_eq hf] at hc
  obtain ⟨hlt, hget⟩ := List.getElem?_eq_some_iff.mp hc
  rw [drop_eq_getElem_cons hlt, hget] at hchain hreach
  rw [reach] at hreach
  cases hforms : c.forms expander fuel env with
  | none =>
      rw [hforms] at hreach
      cases hreach
  | some fs =>
      rw [hforms] at hreach
      have helem : c.elements expander fuel env = fs := by
        unfold Control.elements
        rw [hforms]
        rfl
      rw [helem]
      dsimp only [bind_eq_bind, bind_some] at hreach
      cases hts : fs.mapM (fun f => reach expander fuel (env.bind (.control c.name) f)
          (sid.controls.reverse.drop (level + 1)) sid.expression) with
      | none =>
          rw [hts] at hreach
          cases hreach
      | some ts =>
          rw [hts] at hreach
          refine ⟨ts, ?_, rfl, rfl, hchain.2⟩
          rw [htree]
          exact hreach.symm

/-- A control's name determines the control. -/
def NamesDetermine (sids : List (Sid I A)) : Prop :=
  ∀ u v c d, c ∈ controlsOf sids u → d ∈ controlsOf sids v → c.name = d.name → c = d

theorem sees_row {cell : List (Control I A)} (hnames : NamesDetermine sids)
    (hcell : Collects (vs.filterMap (levelControl sids level)) cell)
    (hlen : ∀ v ∈ vs, ∀ sid, sids.find? (fun sid => sid.name = v) = some sid →
      level < sid.controls.length)
    (hsees : Sees expander fuel sids env level trees vs) (hn : copies trees vs = some n) :
    Ranges expander fuel env cell n
      ∧ ∀ j, j < n → Sees expander fuel sids (rowEnv expander fuel env cell j) (level + 1)
          (element trees j) vs := by
  have hfind : ∀ {v : I} {c : Control I A}, levelControl sids level v = some c →
      ∃ sid, sids.find? (fun sid => sid.name = v) = some sid := by
    intro v c hc
    cases hf : sids.find? (fun sid => sid.name = v) with
    | none =>
        have := mem_controlsOf_of_level hc
        rw [controlsOf_eq_nil hf] at this
        cases this
    | some sid => exact ⟨sid, rfl⟩
  constructor
  · intro c hc
    obtain ⟨v, hv, hlev⟩ := mem_filterMap.mp (hcell.subset c hc)
    obtain ⟨sid, hf⟩ := hfind hlev
    obtain ⟨ts, htree, hforms, hmap, -⟩ := hsees.control hv hf hlev
    exact ⟨hforms, by rw [← (mapM_eq_some hmap).1, copies_eq hn hv htree]⟩
  · intro j hj v hv
    constructor
    · intro hf
      rw [element, (hsees v hv).1 hf]
    · intro sid hf
      have hlt : level < (controlsOf sids v).length := by
        rw [controlsOf_eq hf]
        exact hlen v hv sid hf
      obtain ⟨c, hlev, -⟩ := outer_succ hlt
      obtain ⟨ts, htree, hforms, hmap, hchain⟩ := hsees.control hv hf hlev
      obtain ⟨hmlen, hmget⟩ := mapM_eq_some hmap
      have hts := copies_eq hn hv htree
      -- the control of `v` is one of those the ellipsis maps over
      have hmem : c ∈ cell := by
        obtain ⟨d, hd, hname⟩ := List.mem_map.mp
          (hcell.mem c (mem_filterMap.mpr ⟨v, hv, hlev⟩))
        obtain ⟨u, -, hu⟩ := mem_filterMap.mp (hcell.subset d hd)
        rw [hnames v u c d (mem_controlsOf_of_level hlev) (mem_controlsOf_of_level hu) hname.symm]
        exact hd
      have hval : (rowEnv expander fuel env cell j).value (.control c.name)
          = some ((c.elements expander fuel env).getD j .nil) :=
        bindControls_value hcell.nodup hmem
      have hjlt : j < (c.elements expander fuel env).length := by omega
      have hjget : (c.elements expander fuel env)[j]?
          = some ((c.elements expander fuel env).getD j .nil) := by
        rw [getD_eq_getElem?_getD, List.getElem?_eq_getElem hjlt]
        rfl
      refine ⟨.control c.name, ts.get ⟨j, by omega⟩, hchain, ?_, ?_⟩
      · rw [element, htree]
        exact List.getElem?_eq_getElem _
      · have := hmget j _ hjget
        rw [List.getElem?_eq_getElem (by omega)] at this
        rw [reach_chain hchain (hval.trans bind_value_self.symm)]
        exact this

/-! ## Templates -/

/-- **The code of a template builds the instantiated template.** -/
theorem generateOutput_correct {next : Nat} (hs : SidsFor isEllipsis keywords pattern next sids)
    (hnames : NamesDetermine sids) :
    ∀ (t : Form I A) (es es' : List (List (Control I A))) (env : Env I A)
      (trees : I → Option (Tree I A)) (code : Code I A) (output : Form I A),
      LegalTemplate isEllipsis keywords pattern t es.length →
      generateOutput isEllipsis sids t es = .ok (code, es') →
      Sees expander fuel sids env es.length trees (identifiers isEllipsis t) →
      instantiate isEllipsis expander t trees = some output →
      eval expander fuel env code = some (.form output) := by
  refine template_induction isEllipsis ?_ ?_ ?_ ?_ ?_
  · intro i es es' env trees code output hl hgen hsees hout
    rw [generateOutput] at hgen
    obtain ⟨hnone, hsome⟩ := hsees i (by simp [identifiers])
    rw [instantiate] at hout
    cases hf : sids.find? (fun sid => sid.name = i) with
    | none =>
        rw [hf] at hgen
        cases hgen
        rw [hnone hf] at hout
        cases hout
        exact eval_rename
    | some sid =>
        rw [hf] at hgen
        obtain ⟨es1, -, hcode⟩ := bind_eq_ok.mp hgen
        cases hcode
        obtain ⟨x, tree, -, htree, hreach⟩ := hsome sid hf
        have hex : (enclosing isEllipsis keywords pattern 0 i).isSome := by
          rw [enclosing_isSome pattern 0 next, ← hs.find i, hf]
          rfl
        obtain ⟨above, he⟩ := isSome_iff_exists.mp hex
        have hlen : sid.controls.length = es.length := by
          rw [← controlsOf_eq hf, controlsOf_length hs he, hl above he]
        rw [drop_of_length_le (Nat.le_of_eq (by rw [length_reverse, hlen])), reach] at hreach
        rw [htree] at hout
        cases hv : eval expander fuel env sid.expression with
        | none =>
            rw [hv] at hreach
            cases hreach
        | some v =>
            rw [hv] at hreach
            cases hform : v.toForm with
            | none =>
                change v.toForm.bind _ = _ at hreach
                rw [hform] at hreach
                cases hreach
            | some f =>
                change v.toForm.bind _ = _ at hreach
                rw [hform] at hreach
                cases hreach
                cases hout
                rw [toForm_eq hform]
  · intro a es es' env trees code output _ hgen _ hout
    · cases hgen
      · cases hout
        exact eval_quote
  · intro es es' env trees code output _ hgen _ hout
    · cases hgen
      · cases hout
        exact eval_quote
  · intro t i rest hi iht ihr es es' env trees code output hl hgen hsees hout
    rw [LegalTemplate, if_pos hi] at hl
    obtain ⟨hlt, hex, hlr⟩ := hl
    rw [identifiers_ellipsis hi] at hsees
    have hseest := hsees.mono (identifiers isEllipsis t) (by simp +contextual)
    have hseesr := hsees.mono (identifiers isEllipsis rest) (by simp +contextual)
    rw [generateOutput, if_pos hi] at hgen
    obtain ⟨⟨y, es1⟩, hy, hgen⟩ := bind_eq_ok.mp hgen
    have hlen := effect_length ((generateOutput_ok_iff hs rest es es1 hlr).mp ⟨y, hy⟩).2
    obtain ⟨⟨body, inner⟩, hbody, hgen⟩ := bind_eq_ok.mp hgen
    obtain ⟨x, hx, hgen⟩ := bind_eq_ok.mp hgen
    cases hgen
    have hlt' : LegalTemplate isEllipsis keywords pattern t ([] :: es1).length := by
      rw [length_cons, hlen]
      exact hlt
    have het := ((generateOutput_ok_iff hs t ([] :: es1) inner hlt').mp ⟨body, hbody⟩).2
    obtain ⟨cell, es2, rfl, hadd, -⟩ := (effect_cons (fun v hv =>
      hlen ▸ controls_or_nil hs hlt hv)).mp het
    rw [hlen] at hadd
    have hcell := addAll_collects hadd
    rw [instantiate, if_pos hi] at hout
    obtain ⟨n, hn, hout⟩ := bind_eq_some_iff.mp hout
    obtain ⟨forms, hforms, hout⟩ := bind_eq_some_iff.mp hout
    obtain ⟨r, hr, hout⟩ := bind_eq_some_iff.mp hout
    cases hout
    have hlevels : ∀ v ∈ identifiers isEllipsis t, ∀ sid,
        sids.find? (fun sid => sid.name = v) = some sid → es.length < sid.controls.length := by
      intro v hv sid hf
      have hsome : (enclosing isEllipsis keywords pattern 0 v).isSome := by
        rw [enclosing_isSome pattern 0 next, ← hs.find v, hf]
        rfl
      obtain ⟨above, he⟩ := isSome_iff_exists.mp hsome
      rw [← controlsOf_eq hf, controlsOf_length hs he]
      exact level_le_of_legal he t (es.length + 1) hlt hv
    obtain ⟨hranges, hrow⟩ := sees_row hnames hcell hlevels hseest hn
    refine optimizedAppend_spec (generateEllipsis_spec hx hranges ?_)
      (ihr es es1 env trees y r hlr hy hseesr hr)
    refine mapM_some_of_imp ?_ hforms
    intro j hj f hf
    rw [iht ([] :: es1) (cell :: es2) _ _ body f hlt' hbody (by
      rw [length_cons, hlen]
      exact hrow j (mem_range.mp hj)) hf]
    rfl
  · intro t q hz iht ihq es es' env trees code output hl hgen hsees hout
    rw [legalTemplate_pair hz] at hl
    rw [identifiers_pair hz] at hsees
    have hseest := hsees.mono (identifiers isEllipsis t) (by simp +contextual)
    have hseesq := hsees.mono (identifiers isEllipsis q) (by simp +contextual)
    rw [generateOutput_pair hz] at hgen
    obtain ⟨⟨d, es1⟩, hd, hgen⟩ := bind_eq_ok.mp hgen
    have hlen := effect_length ((generateOutput_ok_iff hs q es es1 hl.2).mp ⟨d, hd⟩).2
    obtain ⟨⟨a, es2⟩, ha, hgen⟩ := bind_eq_ok.mp hgen
    cases hgen
    rw [instantiate_pair hz] at hout
    obtain ⟨fa, hfa, hout⟩ := bind_eq_some_iff.mp hout
    obtain ⟨fd, hfd, hout⟩ := bind_eq_some_iff.mp hout
    cases hout
    exact optimizedCons_spec (iht es1 es' env trees a fa (hlen ▸ hl.1) ha (hlen ▸ hseest) hfa)
      (ihq es es1 env trees d fd hl.2 hd hseesq hfd)

/-! ## Clauses -/

variable (isEllipsis keywords) in
theorem parsePattern_top (pattern : Form I A) (next : Nat) (v : I) :
    (enclosing isEllipsis keywords pattern next v = none
      ∧ (parsePattern isEllipsis keywords pattern (.var .form) [] [] next).1.find?
          (fun sid => sid.name = v) = none)
    ∨ ∃ above sid, enclosing isEllipsis keywords pattern next v = some above
      ∧ (parsePattern isEllipsis keywords pattern (.var .form) [] [] next).1.find?
          (fun sid => sid.name = v) = some sid
      ∧ Describes isEllipsis keywords pattern (.var .form) [] next v above sid.controls sid := by
  have h := @parsePattern_spec I A _ _ isEllipsis keywords pattern (.var .form) [] next v
  cases he : enclosing isEllipsis keywords pattern next v with
  | none =>
      rw [he] at h
      exact Or.inl ⟨rfl, h⟩
  | some above =>
      rw [he] at h
      obtain ⟨inner, sid, hfind, hd⟩ := h
      have hinner : sid.controls = inner := by rw [hd.controls, append_nil]
      exact Or.inr ⟨above, sid, rfl, hfind, hinner ▸ hd⟩

variable (isEllipsis keywords) in
theorem sidsFor_parsePattern (pattern : Form I A) (next : Nat) :
    SidsFor isEllipsis keywords pattern next
      (parsePattern isEllipsis keywords pattern (.var .form) [] [] next).1 := by
  constructor
  · intro v
    rcases parsePattern_top isEllipsis keywords pattern next v with
      ⟨he, hf⟩ | ⟨above, sid, he, hf, -⟩
    · rw [he, hf]
      rfl
    · rw [he, hf]
      rfl
  · intro v
    rcases parsePattern_top isEllipsis keywords pattern next v with
      ⟨he, hf⟩ | ⟨above, sid, he, hf, hd⟩
    · rw [he, controlsOf_eq_nil hf]
      rfl
    · rw [he, controlsOf_eq hf]
      exact hd.above

variable (isEllipsis keywords) in
theorem namesDetermine_parsePattern (pattern : Form I A) (next : Nat) :
    NamesDetermine (parsePattern isEllipsis keywords pattern (.var .form) [] [] next).1 := by
  have hexpr : ∀ v c, c ∈ controlsOf
        (parsePattern isEllipsis keywords pattern (.var .form) [] [] next).1 v →
      controlExpression isEllipsis pattern (.var .form) next c.name = some c.expression := by
    intro v c hc
    rcases parsePattern_top isEllipsis keywords pattern next v with
      ⟨-, hf⟩ | ⟨above, sid, -, hf, hd⟩
    · rw [controlsOf_eq_nil hf] at hc
      cases hc
    · rw [controlsOf_eq hf] at hc
      exact hd.expressions c hc
  intro u v c d hc hd hname
  have h := (hexpr u c hc).symm.trans ((congrArg _ hname).trans (hexpr v d hd))
  obtain ⟨n, e⟩ := c
  cases hname
  cases h
  rfl

theorem sees_initial {pattern form : Form I A} {next : Nat} (vs : List I)
    (hm : matchesP isEllipsis keywords expander pattern form = true) :
    Sees expander fuel (parsePattern isEllipsis keywords pattern (.var .form) [] [] next).1
      (Env.initial form) 0 (matched isEllipsis keywords pattern form) vs := by
  intro v _
  have hform : eval expander fuel (Env.initial form) (.var .form) = some (.form form) := by
    simp [Env.initial]
  have hsome := matched_isSome pattern form v hm
  rw [enclosing_isSome pattern 0 next] at hsome
  rcases parsePattern_top isEllipsis keywords pattern next v with
    ⟨he, hf⟩ | ⟨above, sid, he, hf, hd⟩
  · rw [hf]
    rw [he] at hsome
    refine ⟨fun _ => isNone_iff_eq_none.mp (by simpa using hsome), ?_⟩
    intro sid hsid
    cases hsid
  · rw [hf]
    refine ⟨?_, ?_⟩
    · intro hsid
      cases hsid
    intro sid' hsid
    cases hsid
    rw [he] at hsome
    obtain ⟨tree, htree⟩ := isSome_iff_exists.mp hsome
    refine ⟨.form, tree, hd.chain _ .var, htree, ?_⟩
    rw [drop_zero, hd.tree expander fuel _ form hform hm, htree]

theorem generateOutput_top_iff {pattern template : Form I A} (next : Nat)
    (hl : LegalTemplate isEllipsis keywords pattern template 0) :
    (∃ result, generateOutput isEllipsis
        (parsePattern isEllipsis keywords pattern (.var .form) [] [] next).1 template [] = .ok result)
      ↔ GroupedTemplate isEllipsis keywords pattern template 0 := by
  have hiff := generateOutput_ok_iff (sidsFor_parsePattern isEllipsis keywords pattern next) template []
  constructor
  · rintro ⟨⟨code, es'⟩, h⟩
    exact ((hiff es' hl).mp ⟨code, h⟩).1
  · intro hg
    have heff : ∀ vs : List I, effect
        (parsePattern isEllipsis keywords pattern (.var .form) [] [] next).1 vs [] = .ok [] := by
      intro vs
      induction vs with
      | nil => rfl
      | cons v vs ih =>
          rw [effect, ih]
          simp [outer, addControl, bind, Except.bind]
    obtain ⟨code, h⟩ := (hiff [] hl).mpr ⟨hg, heff _⟩
    exact ⟨_, h⟩

theorem generateClauses_ok_iff : ∀ {clauses : List (Form I A × Form I A)} {next : Nat},
    (∀ clause ∈ clauses, LegalClause isEllipsis keywords clause) →
    ((∃ code, generateClauses isEllipsis keywords clauses next = .ok code)
      ↔ ∀ clause ∈ clauses, GroupedTemplate isEllipsis keywords clause.1 clause.2 0)
  | [], next, _ => by simp [generateClauses]
  | (pattern, template) :: clauses, next, hl => by
      have htop := generateOutput_top_iff next (hl (pattern, template) (by simp)).template
      have ih := fun n => @generateClauses_ok_iff clauses n (fun c hc => hl c (by simp [hc]))
      rw [forall_mem_cons, ← htop]
      constructor
      · rintro ⟨code, h⟩
        obtain ⟨output, hout, h⟩ := bind_eq_ok.mp h
        obtain ⟨alternative, halt, -⟩ := bind_eq_ok.mp h
        exact ⟨⟨output, hout⟩, (ih _).mp ⟨alternative, halt⟩⟩
      · rintro ⟨⟨output, hout⟩, hrest⟩
        obtain ⟨alternative, halt⟩ := (ih _).mpr hrest
        exact ⟨_, bind_eq_ok.mpr ⟨output, hout, bind_eq_ok.mpr ⟨alternative, halt, rfl⟩⟩⟩

/-- **The transformer selects the first clause that matches**, and builds its template. -/
theorem generateClauses_correct {form : Form I A} (hfuel : form.pairs < fuel) :
    ∀ {clauses : List (Form I A × Form I A)} {next : Nat} {code : Code I A},
    (∀ clause ∈ clauses, LegalClause isEllipsis keywords clause) →
    generateClauses isEllipsis keywords clauses next = .ok code →
    match clauses.find? (fun clause => matchesP isEllipsis keywords expander clause.1 form) with
    | none => expand expander fuel code form = some .illFormed
    | some (pattern, template) =>
        ∀ output, instantiate isEllipsis expander template
            (matched isEllipsis keywords pattern form) = some output →
          expand expander fuel code form = some (.form output)
  | [], next, code, _, h => by
      cases h
      simp [expand, eval]
  | (pattern, template) :: clauses, next, code, hl, h => by
      obtain ⟨⟨output, es'⟩, hout, h⟩ := bind_eq_ok.mp h
      obtain ⟨alternative, halt, h⟩ := bind_eq_ok.mp h
      cases h
      have ih := generateClauses_correct hfuel (fun c hc => hl c (by simp [hc])) halt
      have htest : eval expander fuel (Env.initial form)
          (generateMatch isEllipsis keywords pattern (.var .form))
          = some (.bool (matchesP isEllipsis keywords expander pattern form)) :=
        generateMatch_spec pattern (.var .form) (Env.initial form) form
          (by simp [Env.initial]) hfuel
      unfold expand at ih ⊢
      rw [eval_cond htest, List.find?_cons]
      cases hm : matchesP isEllipsis keywords expander pattern form with
      | false => exact ih
      | true =>
          intro f hf
          exact generateOutput_correct (sidsFor_parsePattern isEllipsis keywords pattern next)
            (namesDetermine_parsePattern isEllipsis keywords pattern next) template [] es' _ _ output f
            (hl (pattern, template) (by simp)).template hout (sees_initial _ hm) hf

/-- **`syntax-rules` expands by its clauses exactly when** no keyword is given twice and no
variable comes back below an ellipsis of a template after a variable that stems from
another ellipsis of the pattern. -/
theorem expandsByClauses_iff {clauses : List (Form I A × Form I A)}
    (hl : ∀ clause ∈ clauses, LegalClause isEllipsis keywords clause) :
    ExpandsByClauses isEllipsis keywords clauses
      ↔ keywords.Nodup
        ∧ ∀ clause ∈ clauses, GroupedTemplate isEllipsis keywords clause.1 clause.2 0 := by
  unfold ExpandsByClauses syntaxRules
  constructor
  · rintro ⟨code, h, -⟩
    split at h
    · rename_i hnd
      exact ⟨hnd, (generateClauses_ok_iff hl).mp ⟨code, h⟩⟩
    · cases h
  · rintro ⟨hnd, hg⟩
    rw [if_pos hnd]
    obtain ⟨code, h⟩ := (generateClauses_ok_iff hl).mpr hg
    refine ⟨code, h, fun expander form => ⟨form.pairs + 1, fun fuel hfuel => ?_⟩⟩
    exact generateClauses_correct hfuel hl h

/-- `...` is written `...`. -/
def dots (i : String) : Bool := i == "..."

/-- The pattern `(_ (a ...) (b ...))`. -/
def twoLists : Form String Nat :=
  .ofList [.ident "_", .ofList [.ident "a", .ident "..."], .ofList [.ident "b", .ident "..."]]

/-- A template below one ellipsis: `((x y z) ...)`. -/
def triples (x y z : String) : Form String Nat :=
  .ofList [.ofList [.ident x, .ident y, .ident z], .ident "..."]

theorem legalClause_triples {x y z : String} (hx : x = "a" ∨ x = "b") (hy : y = "a" ∨ y = "b")
    (hz : z = "a" ∨ z = "b") : LegalClause dots [] (twoLists, triples x y z) := by
  constructor
  · simp [EllipsesLast, twoLists, ofList, ellipsisP, zeroOrMoreP, cddr, dots]
  · rcases hx with rfl | rfl <;> rcases hy with rfl | rfl <;> rcases hz with rfl | rfl <;>
      simp [LegalTemplate, twoLists, triples, ofList, ellipsisP, zeroOrMoreP, cddr, dots,
        enclosing, ellipsisCount, identifiers]

theorem expandsByClauses_triples : ExpandsByClauses dots [] [(twoLists, triples "a" "a" "b")] := by
  refine (expandsByClauses_iff ?_).mpr ⟨nodup_nil, ?_⟩
  · intro clause hclause
    rw [mem_singleton.mp hclause]
    exact legalClause_triples (by decide) (by decide) (by decide)
  · intro clause hclause
    rw [mem_singleton.mp hclause]
    simp [GroupedTemplate, twoLists, triples, ofList, ellipsisP, zeroOrMoreP, cddr, dots,
      enclosing, ellipsisCount, identifiers, grouped_cons, grouped_nil]

/-- **`((a b a) ...)` is legal, but no transformer is generated for it.** -/
theorem not_expandsByClauses_triples : LegalClause dots [] (twoLists, triples "a" "b" "a")
    ∧ ¬ ExpandsByClauses dots [] [(twoLists, triples "a" "b" "a")] := by
  refine ⟨legalClause_triples (by decide) (by decide) (by decide), ?_⟩
  rintro ⟨transformer, h, -⟩
  have herror : syntaxRules dots [] [(twoLists, triples "a" "b" "a")]
      = .error .illegalCombination := by
    rfl
  cases h

end MitScheme.SyntaxRules
