import MitScheme.Runtime.SyntaxRulesControls

/-!
# The generated code builds the template

Below an ellipsis of the template, the generated code maps over the lists of its
controls. The environment of one call of the mapped procedure binds each control to one
element, and from there every variable below the ellipsis reaches the corresponding
element of its sequence: that is the invariant (`Sees`) that goes down the template.
-/

namespace MitScheme.SyntaxRules

open List Option

variable {I A : Type}

/-! ## Proper lists -/

theorem toList_ofList : ∀ l : List (Form I A), (Form.ofList l).toList = some l
  | [] => rfl
  | a :: l => by
      rw [Form.ofList, Form.toList, toList_ofList l]
      rfl

theorem eq_ofList : ∀ {f : Form I A} {l : List (Form I A)}, f.toList = some l →
    f = Form.ofList l
  | .nil, l, h => by
      cases h
      rfl
  | .pair a d, l, h => by
      rw [Form.toList, map_eq_some_iff] at h
      obtain ⟨l', hl', rfl⟩ := h
      rw [Form.ofList, ← eq_ofList hl']
  | .ident _, _, h => by cases h
  | .atom _, _, h => by cases h

theorem mapEnd_nil {lists : List (Form I A)} (h : ∀ f ∈ lists, f = .nil) :
    mapEnd (.nil :: lists) = some [] := by
  unfold mapEnd
  split
  · rw [if_pos]
    rw [List.all_eq_true]
    intro f hf
    rcases mem_cons.mp hf with rfl | hf
    · rfl
    · rw [h f hf]
      rfl
  · rfl

theorem mapRows_ofList : ∀ (xs : List (Form I A)) (lists : List (List (Form I A))),
    (∀ l ∈ lists, l.length = xs.length) →
    mapRows (Form.ofList xs) (lists.map Form.ofList)
      = some ((List.range xs.length).map fun j => (xs :: lists).map fun l => l.getD j .nil)
  | [], lists, h => by
      rw [Form.ofList, mapRows]
      · rw [mapEnd_nil]
        · rfl
        · intro f hf
          obtain ⟨l, hl, rfl⟩ := List.mem_map.mp hf
          rw [length_eq_zero_iff.mp (h l hl)]
          rfl
      · intro a d h
        cases h
  | x :: xs, lists, h => by
      rw [Form.ofList, mapRows]
      have hcons : ∀ l ∈ lists, ∃ a l', l = a :: l' ∧ l'.length = xs.length := by
        intro l hl
        have hlen := h l hl
        cases l with
        | nil => cases hlen
        | cons a l' => exact ⟨a, l', rfl, by simpa using hlen⟩
      have hall : (lists.map Form.ofList).all Form.pairP = true := by
        rw [List.all_eq_true]
        intro f hf
        obtain ⟨l, hl, rfl⟩ := List.mem_map.mp hf
        obtain ⟨a, l', rfl, -⟩ := hcons l hl
        rfl
      have hcdrs : (lists.map Form.ofList).map Form.cdrD
          = (lists.map List.tail).map Form.ofList := by
        rw [List.map_map, List.map_map]
        refine map_congr_left ?_
        intro l hl
        obtain ⟨a, l', rfl, -⟩ := hcons l hl
        rfl
      have hcars : (lists.map Form.ofList).map Form.carD
          = lists.map fun l => l.getD 0 .nil := by
        rw [List.map_map]
        refine map_congr_left ?_
        intro l hl
        obtain ⟨a, l', rfl, -⟩ := hcons l hl
        rfl
      rw [if_pos hall, hcdrs, hcars, mapRows_ofList xs (lists.map List.tail)]
      · rw [length_cons, range_succ_eq_map, map_cons, List.map_map]
        simp only [bind_eq_bind, bind_some, Option.some.injEq, List.cons.injEq]
        refine ⟨rfl, map_congr_left ?_⟩
        intro j _
        simp only [Function.comp_apply, map_cons, List.map_map, Nat.succ_eq_add_one,
          getD_cons_succ, List.cons.injEq, true_and]
        refine map_congr_left ?_
        intro l hl
        obtain ⟨a, l', rfl, -⟩ := hcons l hl
        rfl
      · intro l hl
        obtain ⟨l0, hl0, rfl⟩ := List.mem_map.mp hl
        obtain ⟨a, l', rfl, hlen⟩ := hcons l0 hl0
        exact hlen

theorem bindControls_value {env : Env I A} {g : Control I A → Form I A} :
    ∀ {cs : List (Control I A)} {c : Control I A}, (cs.map Control.name).Nodup → c ∈ cs →
      (env.bindControls (cs.map Control.name) (cs.map g)).value (.control c.name) = some (g c)
  | c' :: cs, c, hnd, hc => by
      rw [map_cons, nodup_cons] at hnd
      rw [map_cons, map_cons, Env.bindControls]
      rcases mem_cons.mp hc with rfl | hc
      · exact bind_value_self
      · have hne : Name.control c.name ≠ .control c'.name := by
          intro heq
          injection heq with heq
          exact hnd.1 (heq ▸ List.mem_map_of_mem hc)
        rw [bind_value_ne hne]
        exact bindControls_value hnd.2 hc

/-! ## Templates by cases -/

variable {isEllipsis : I → Bool}

theorem template_induction (isEllipsis : I → Bool) {motive : Form I A → Prop}
    (ident : ∀ i, motive (.ident i)) (atom : ∀ a, motive (.atom a)) (nil : motive .nil)
    (ellipsis : ∀ t i rest, isEllipsis i = true → motive t → motive rest →
      motive (.pair t (.pair (.ident i) rest)))
    (pair : ∀ t q, zeroOrMoreP isEllipsis (.pair t q) = false → motive t → motive q →
      motive (.pair t q)) : ∀ template, motive template
  | .ident i => ident i
  | .atom a => atom a
  | .nil => nil
  | .pair t (.pair (.ident i) rest) => by
      have ht := template_induction isEllipsis ident atom nil ellipsis pair t
      cases h : isEllipsis i with
      | true => exact ellipsis t i rest h ht (template_induction isEllipsis ident atom nil ellipsis pair rest)
      | false =>
          exact pair t _ h ht
            (template_induction isEllipsis ident atom nil ellipsis pair (.pair (.ident i) rest))
  | .pair t (.pair (.atom a) d) | .pair t (.pair .nil d) | .pair t (.pair (.pair a b) d) =>
      pair t _ rfl (template_induction isEllipsis ident atom nil ellipsis pair t)
        (template_induction isEllipsis ident atom nil ellipsis pair _)
  | .pair t (.ident i) =>
      pair t _ rfl (template_induction isEllipsis ident atom nil ellipsis pair t) (ident i)
  | .pair t (.atom a) =>
      pair t _ rfl (template_induction isEllipsis ident atom nil ellipsis pair t) (atom a)
  | .pair t .nil => pair t _ rfl (template_induction isEllipsis ident atom nil ellipsis pair t) nil

variable {t q : Form I A} {v : I} {level next : Nat}

theorem identifiers_ellipsis {rest : Form I A} {i : I} (h : isEllipsis i = true) :
    identifiers isEllipsis (.pair t (.pair (.ident i) rest))
      = identifiers isEllipsis t ++ identifiers isEllipsis rest := by
  rw [identifiers, if_pos h]

theorem identifiers_pair (h : zeroOrMoreP isEllipsis (.pair t q) = false) :
    identifiers isEllipsis (.pair t q)
      = identifiers isEllipsis t ++ identifiers isEllipsis q := by
  rw [identifiers.eq_def]
  split
  · rename_i heq
    cases heq
  · rename_i i rest heq
    cases heq
    rw [if_neg (by simpa [zeroOrMoreP] using h)]
  · rename_i heq
    cases heq
    rfl
  · rename_i hne
    exact absurd rfl (hne t q)

variable {expander : Expander I} {sids : List (Sid I A)}

theorem instantiate_pair {trees : I → Option (Tree I A)}
    (h : zeroOrMoreP isEllipsis (.pair t q) = false) :
    instantiate isEllipsis expander (.pair t q) trees = (do
      let a ← instantiate isEllipsis expander t trees
      let d ← instantiate isEllipsis expander q trees
      some (.pair a d)) := by
  rw [instantiate.eq_def]
  split
  · rename_i heq
    cases heq
  · rename_i i rest heq
    cases heq
    rw [if_neg (by simpa [zeroOrMoreP] using h)]
  · rename_i heq
    cases heq
    rfl
  · rename_i hne
    exact absurd rfl (hne t q)

theorem generateEllipsis_ok {cell : List (Control I A)} {body : Code I A} (h : cell ≠ []) :
    ∃ code, generateEllipsis cell body = .ok code := by
  unfold generateEllipsis
  split
  · exact absurd rfl h
  · split
    · split <;> exact ⟨_, rfl⟩
    · split <;> exact ⟨_, rfl⟩
    · exact ⟨_, rfl⟩
  · exact ⟨_, rfl⟩

variable [DecidableEq I]

theorem generateOutput_pair {es : List (List (Control I A))}
    (h : zeroOrMoreP isEllipsis (.pair t q) = false) :
    generateOutput isEllipsis sids (.pair t q) es = (do
      let (d, es) ← generateOutput isEllipsis sids q es
      let (a, es) ← generateOutput isEllipsis sids t es
      .ok (optimizedCons a d, es)) := by
  rw [generateOutput.eq_def]
  split
  · rename_i heq
    cases heq
  · rename_i i rest heq
    cases heq
    rw [if_neg (by simpa [zeroOrMoreP] using h)]
  · rename_i heq
    cases heq
    rfl
  · rename_i hne
    exact absurd rfl (hne t q)

theorem controlsOf_eq_nil (h : sids.find? (fun sid => sid.name = v) = none) :
    controlsOf sids v = [] := by
  unfold controlsOf
  rw [h]

theorem controlsOf_eq {sid : Sid I A}
    (h : sids.find? (fun sid => sid.name = v) = some sid) : controlsOf sids v = sid.controls := by
  unfold controlsOf
  rw [h]

variable [DecidableEq A] {keywords : List I} {fuel : Nat} {pattern : Form I A}

theorem legalTemplate_pair (h : zeroOrMoreP isEllipsis (.pair t q) = false) :
    LegalTemplate isEllipsis keywords pattern (.pair t q) level
      ↔ LegalTemplate isEllipsis keywords pattern t level
        ∧ LegalTemplate isEllipsis keywords pattern q level := by
  rw [LegalTemplate.eq_def]
  split
  · rename_i heq
    cases heq
  · rename_i i rest heq
    cases heq
    rw [if_neg (by simpa [zeroOrMoreP] using h)]
  · rename_i heq
    cases heq
    rfl
  · rename_i hne
    exact absurd rfl (hne t q)

theorem groupedTemplate_pair (h : zeroOrMoreP isEllipsis (.pair t q) = false) :
    GroupedTemplate isEllipsis keywords pattern (.pair t q) level
      ↔ GroupedTemplate isEllipsis keywords pattern t level
        ∧ GroupedTemplate isEllipsis keywords pattern q level := by
  rw [GroupedTemplate.eq_def]
  split
  · rename_i i rest heq
    cases heq
    rw [if_neg (by simpa [zeroOrMoreP] using h)]
  · rename_i heq
    cases heq
    rfl
  · rename_i hne
    exact absurd rfl (hne t q)

theorem level_le_of_legal {above : List Nat}
    (hv : enclosing isEllipsis keywords pattern 0 v = some above) :
    ∀ (t : Form I A) (level : Nat), LegalTemplate isEllipsis keywords pattern t level →
      v ∈ identifiers isEllipsis t → level ≤ above.length := by
  refine template_induction isEllipsis ?_ ?_ ?_ ?_ ?_
  · intro i level hl hmem
    rw [identifiers, mem_singleton] at hmem
    subst hmem
    exact Nat.le_of_eq (hl above hv).symm
  · intro a level _ hmem
    simp [identifiers] at hmem
  · intro level _ hmem
    simp [identifiers] at hmem
  · intro t i rest hi iht ihr level hl hmem
    rw [LegalTemplate, if_pos hi] at hl
    rw [identifiers_ellipsis hi, mem_append] at hmem
    rcases hmem with h | h
    · have := iht (level + 1) hl.1 h
      omega
    · exact ihr level hl.2.2 h
  · intro t q hz iht ihq level hl hmem
    rw [legalTemplate_pair hz] at hl
    rw [identifiers_pair hz, mem_append] at hmem
    rcases hmem with h | h
    · exact iht level hl.1 h
    · exact ihq level hl.2 h

/-! ## When the output is generated -/

/-- The sids are those of the pattern, its ellipses being numbered from `next` on. -/
structure SidsFor (isEllipsis : I → Bool) (keywords : List I) (pattern : Form I A) (next : Nat)
    (sids : List (Sid I A)) : Prop where
  find : ∀ v, (sids.find? (fun sid => sid.name = v)).isSome
    = (enclosing isEllipsis keywords pattern next v).isSome
  above : ∀ v, (controlsOf sids v).reverse.map Control.name
    = (enclosing isEllipsis keywords pattern next v).getD []

theorem enclosing_shift : ∀ (p : Form I A) (n m : Nat) (v : I),
    enclosing isEllipsis keywords p (n + m) v
      = (enclosing isEllipsis keywords p n v).map (List.map (· + m))
  | .ident i, n, m, v => by
      rw [enclosing, enclosing]
      split <;> rfl
  | .pair p q, n, m, v => by
      rw [enclosing, enclosing]
      split
      · rw [show n + m + 1 = n + 1 + m by omega, enclosing_shift p (n + 1) m v, Option.map_map,
          Option.map_map]
        rfl
      · rw [show n + m + ellipsisCount isEllipsis q = n + ellipsisCount isEllipsis q + m by omega,
          enclosing_shift p _ m v, enclosing_shift q n m v]
        cases enclosing isEllipsis keywords p (n + ellipsisCount isEllipsis q) v <;> rfl
  | .nil, _, _, _ => by simp [enclosing]
  | .atom _, _, _, _ => by simp [enclosing]

theorem grouped_map {f : Nat → Nat} (hf : Function.Injective f) :
    ∀ {l : List Nat}, Grouped (l.map f) ↔ Grouped l
  | [] => Iff.rfl
  | x :: l => by
      rw [map_cons, grouped_cons, grouped_cons, grouped_map hf, List.mem_map_of_injective hf,
        List.head?_map]
      refine and_congr_right fun _ => imp_congr_right fun _ => ?_
      constructor
      · intro h
        obtain ⟨y, hy, hxy⟩ := map_eq_some_iff.mp h
        rw [hy, hf hxy]
      · intro h
        rw [h]
        rfl

theorem levelControl_names (hs : SidsFor isEllipsis keywords pattern next sids) (vs : List I) :
    (vs.filterMap (levelControl sids level)).map Control.name
      = (vs.filterMap fun v => (enclosing isEllipsis keywords pattern 0 v).bind
          fun above => above[level]?).map (· + next) := by
  rw [map_filterMap, map_filterMap]
  refine filterMap_congr ?_
  intro v _
  have h := hs.above v
  have hshift : enclosing isEllipsis keywords pattern (0 + next) v = _ :=
    enclosing_shift pattern 0 next v
  rw [Nat.zero_add] at hshift
  rw [hshift] at h
  unfold levelControl
  rw [← List.getElem?_map, h]
  cases enclosing isEllipsis keywords pattern 0 v with
  | none => rfl
  | some above => exact List.getElem?_map

theorem controlsOf_length (hs : SidsFor isEllipsis keywords pattern next sids) {above : List Nat} (hv : enclosing isEllipsis keywords pattern 0 v = some above) :
    (controlsOf sids v).length = above.length := by
  have h := congrArg List.length (hs.above v)
  have hshift : enclosing isEllipsis keywords pattern (0 + next) v = _ :=
    enclosing_shift pattern 0 next v
  rw [Nat.zero_add] at hshift
  rw [hshift, hv] at h
  simpa using h

theorem controls_or_nil (hs : SidsFor isEllipsis keywords pattern next sids) (hl : LegalTemplate isEllipsis keywords pattern t (level + 1)) (hv : v ∈ identifiers isEllipsis t) :
    controlsOf sids v = [] ∨ level < (controlsOf sids v).length := by
  cases he : enclosing isEllipsis keywords pattern 0 v with
  | none =>
      have hf := hs.find v
      rw [enclosing_isSome pattern next 0, he] at hf
      exact Or.inl (controlsOf_eq_nil (isNone_iff_eq_none.mp (by simpa using hf)))
  | some above =>
      rw [controlsOf_length hs he]
      exact Or.inr (level_le_of_legal he t (level + 1) hl hv)

theorem controls_ne_nil (hs : SidsFor isEllipsis keywords pattern next sids) (hl : LegalTemplate isEllipsis keywords pattern t (level + 1))
    (hex : ∃ v ∈ identifiers isEllipsis t, (enclosing isEllipsis keywords pattern 0 v).isSome)
    {cell : List (Control I A)}
    (hc : Collects ((identifiers isEllipsis t).filterMap (levelControl sids level)) cell) :
    cell ≠ [] := by
  obtain ⟨v, hv, hsome⟩ := hex
  obtain ⟨above, he⟩ := isSome_iff_exists.mp hsome
  have hlen : level < (controlsOf sids v).length := by
    rw [controlsOf_length hs he]
    exact level_le_of_legal he t (level + 1) hl hv
  obtain ⟨c, hlev, -⟩ := outer_succ hlen
  have hmem := hc.mem c (mem_filterMap.mpr ⟨v, hv, hlev⟩)
  intro hnil
  rw [hnil] at hmem
  cases hmem

/-- **`generate-output` succeeds exactly when the controls of every ellipsis come in groups**,
those of the template and those around it. -/
theorem generateOutput_ok_iff (hs : SidsFor isEllipsis keywords pattern next sids) :
    ∀ (t : Form I A) (es es' : List (List (Control I A))),
      LegalTemplate isEllipsis keywords pattern t es.length →
      ((∃ code, generateOutput isEllipsis sids t es = .ok (code, es'))
        ↔ GroupedTemplate isEllipsis keywords pattern t es.length
          ∧ effect sids (identifiers isEllipsis t) es = .ok es') := by
  refine template_induction isEllipsis ?_ ?_ ?_ ?_ ?_
  · intro i es es' hl
    have hg : GroupedTemplate isEllipsis keywords pattern (.ident i) es.length := by
      simp [GroupedTemplate]
    rw [generateOutput, identifiers, and_iff_right hg]
    change _ ↔ addControl (outer sids es.length i) es = .ok es'
    cases hf : sids.find? (fun sid => sid.name = i) with
    | none =>
        rw [outer, controlsOf_eq_nil hf, drop_nil]
        constructor
        · rintro ⟨code, h⟩
          cases h
          rfl
        · intro h
          cases h
          exact ⟨_, rfl⟩
    | some sid =>
        have hsome : (enclosing isEllipsis keywords pattern 0 i).isSome := by
          rw [enclosing_isSome pattern 0 next, ← hs.find i, hf]
          rfl
        obtain ⟨above, he⟩ := isSome_iff_exists.mp hsome
        have hlen : (controlsOf sids i).length = es.length :=
          (controlsOf_length hs he).trans (hl above he)
        rw [outer, hlen, Nat.sub_self, controlsOf_eq hf]
        constructor
        · rintro ⟨code, h⟩
          rw [bind_eq_ok] at h
          obtain ⟨es1, h1, h⟩ := h
          cases h
          exact h1
        · intro h
          exact ⟨sid.expression, bind_eq_ok.mpr ⟨es', h, rfl⟩⟩
  · simp [generateOutput, identifiers, GroupedTemplate, effect]
  · simp [generateOutput, identifiers, GroupedTemplate, effect]
  · intro t i rest hi iht ihr es es' hl
    rw [LegalTemplate, if_pos hi] at hl
    obtain ⟨hlt, hex, hlr⟩ := hl
    rw [generateOutput, if_pos hi, identifiers_ellipsis hi, GroupedTemplate, if_pos hi,
      effect_append]
    have hvs : ∀ {es1 : List (List (Control I A))}, es1.length = es.length →
        ∀ v ∈ identifiers isEllipsis t,
          controlsOf sids v = [] ∨ es1.length < (controlsOf sids v).length :=
      fun h v hv => h ▸ controls_or_nil hs hlt hv
    constructor
    · rintro ⟨code, h⟩
      rw [bind_eq_ok] at h
      obtain ⟨⟨y, es1⟩, hy, h⟩ := h
      obtain ⟨hgr, her⟩ := (ihr es es1 hlr).mp ⟨y, hy⟩
      have hlen := effect_length her
      rw [bind_eq_ok] at h
      obtain ⟨⟨body, inner⟩, hbody, h⟩ := h
      have hlt' : LegalTemplate isEllipsis keywords pattern t ([] :: es1).length := by
        rw [length_cons, hlen]
        exact hlt
      obtain ⟨hgt, het⟩ := (iht ([] :: es1) inner hlt').mp ⟨body, hbody⟩
      obtain ⟨cell, es2, rfl, hadd, hes2⟩ := (effect_cons (hvs hlen)).mp het
      rw [bind_eq_ok] at h
      obtain ⟨x, -, h⟩ := h
      cases h
      rw [length_cons, hlen] at hgt
      rw [hlen] at hadd
      refine ⟨⟨hgt, ?_, hgr⟩, es1, her, hes2⟩
      have hg := addAll_ok_iff.mp ⟨cell, hadd⟩
      rw [levelControl_names hs, grouped_map (fun a b h => Nat.add_right_cancel h)] at hg
      exact hg
    · rintro ⟨⟨hgt, hg, hgr⟩, es1, her, hes2⟩
      have hlen := effect_length her
      obtain ⟨y, hy⟩ := (ihr es es1 hlr).mpr ⟨hgr, her⟩
      rw [← grouped_map (fun a b h => Nat.add_right_cancel h), ← levelControl_names hs] at hg
      obtain ⟨cell, hadd⟩ := addAll_ok_iff.mpr hg
      rw [← hlen] at hadd
      have het := (effect_cons (hvs hlen)).mpr ⟨cell, es', rfl, hadd, hes2⟩
      have hlt' : LegalTemplate isEllipsis keywords pattern t ([] :: es1).length := by
        rw [length_cons, hlen]
        exact hlt
      have hgt' : GroupedTemplate isEllipsis keywords pattern t ([] :: es1).length := by
        rw [length_cons, hlen]
        exact hgt
      obtain ⟨body, hbody⟩ := (iht ([] :: es1) (cell :: es') hlt').mpr ⟨hgt', het⟩
      rw [hlen] at hadd
      obtain ⟨x, hx⟩ := @generateEllipsis_ok I A cell body
        (controls_ne_nil hs hlt hex (addAll_collects hadd))
      refine ⟨optimizedAppend x y, ?_⟩
      rw [hy]
      dsimp only [bind, Except.bind]
      rw [hbody]
      dsimp only
      rw [show (cell :: es').headD [] = cell from rfl, hx]
      rfl
  · intro t q hz iht ihq es es' hl
    rw [legalTemplate_pair hz] at hl
    rw [generateOutput_pair hz, identifiers_pair hz, groupedTemplate_pair hz, effect_append]
    constructor
    · rintro ⟨code, h⟩
      rw [bind_eq_ok] at h
      obtain ⟨⟨d, es1⟩, hd, h⟩ := h
      obtain ⟨hgq, heq⟩ := (ihq es es1 hl.2).mp ⟨d, hd⟩
      have hlen := effect_length heq
      dsimp only at h
      rw [bind_eq_ok] at h
      obtain ⟨⟨a, es2⟩, ha, h⟩ := h
      cases h
      obtain ⟨hgt, het⟩ := (iht es1 es2 (hlen ▸ hl.1)).mp ⟨a, ha⟩
      rw [hlen] at hgt
      exact ⟨⟨hgt, hgq⟩, es1, heq, het⟩
    · rintro ⟨⟨hgt, hgq⟩, es1, heq, het⟩
      have hlen := effect_length heq
      obtain ⟨d, hd⟩ := (ihq es es1 hl.2).mpr ⟨hgq, heq⟩
      obtain ⟨a, ha⟩ := (iht es1 es' (hlen ▸ hl.1)).mpr ⟨hlen ▸ hgt, het⟩
      refine ⟨optimizedCons a d, ?_⟩
      rw [hd]
      dsimp only [bind, Except.bind]
      rw [ha]

end MitScheme.SyntaxRules
