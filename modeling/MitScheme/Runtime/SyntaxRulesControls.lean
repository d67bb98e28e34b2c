import MitScheme.Lib.Results
import MitScheme.Runtime.SyntaxRulesParse

/-!
# When `generate-output` succeeds

`add-control!` accepts a control that an ellipsis has not seen yet, and one that it saw
last, but not one that it saw before another. So an ellipsis ends up with its controls
exactly when they come in groups. `generate-output` reaches the ellipses of a template
in an interleaved way; here that is taken apart, one ellipsis at a time.
-/

namespace MitScheme.SyntaxRules

open List

variable {I A : Type}

theorem grouped_nil : Grouped [] := by
  intro x y h
  cases h

theorem grouped_cons {x : Nat} {l : List Nat} :
    Grouped (x :: l) ↔ Grouped l ∧ (x ∈ l → l.head? = some x) := by
  constructor
  · intro h
    refine ⟨fun a b hab => h a b (hab.cons x), ?_⟩
    intro hx
    cases l with
    | nil => cases hx
    | cons y l =>
        by_cases hxy : x = y
        · rw [hxy]
          rfl
        · have hmem : x ∈ l := by
            rcases mem_cons.mp hx with h' | h'
            · exact absurd h' hxy
            · exact h'
          have hsub : [x, y, x].Sublist (x :: y :: l) :=
            ((singleton_sublist.mpr hmem).cons_cons y).cons_cons x
          exact absurd (h x y hsub) hxy
  · rintro ⟨hl, hhead⟩ a b hab
    cases hab with
    | cons _ hab => exact hl a b hab
    | cons_cons _ hab =>
        have hx : x ∈ l := hab.subset (by simp)
        obtain ⟨l', rfl⟩ : ∃ l', l = x :: l' := by
          cases l with
          | nil => cases hx
          | cons y l' =>
              have := hhead hx
              simp only [List.head?_cons, Option.some.injEq] at this
              exact ⟨l', by rw [this]⟩
        cases hab with
        | cons _ hab => exact hl x b (hab.cons_cons x)
        | cons_cons _ hab => rfl

/-! ## One ellipsis -/

theorem addControl_cons {c : Control I A} {cs sids : List (Control I A)}
    {ellipses : List (List (Control I A))} :
    addControl (c :: cs) (sids :: ellipses) = (do
      let sids ← addOne c sids
      let ellipses ← addControl cs ellipses
      .ok (sids :: ellipses)) := rfl

/-- The controls of one ellipsis, added from the right. -/
def addAll : List (Control I A) → List (Control I A) → Except SyntaxError (List (Control I A))
  | [], sids => .ok sids
  | c :: cs, sids => do
      let sids ← addAll cs sids
      addOne c sids

/-- What an ellipsis knows after the controls `cs`. -/
structure Collects (cs sids : List (Control I A)) : Prop where
  grouped : Grouped (cs.map Control.name)
  nodup : (sids.map Control.name).Nodup
  /-- Nothing else was added. -/
  subset : ∀ c ∈ sids, c ∈ cs
  /-- Nothing is missing. -/
  mem : ∀ c ∈ cs, c.name ∈ sids.map Control.name
  /-- The last control comes first. -/
  head : sids.head?.map Control.name = (cs.map Control.name).head?

theorem addOne_ok {c : Control I A} {cs sids sids' : List (Control I A)} (h : Collects cs sids)
    (hc : addOne c sids = .ok sids') : Collects (c :: cs) sids' := by
  unfold addOne at hc
  split at hc
  · rename_i hnew
    cases hc
    refine ⟨?_, ?_, ?_, ?_, by simp⟩
    · rw [map_cons, grouped_cons]
      refine ⟨h.grouped, fun hmem => ?_⟩
      obtain ⟨c', hc', hname⟩ := List.mem_map.mp hmem
      exact absurd (hname ▸ h.mem c' hc') hnew
    · rw [map_cons, nodup_cons]
      exact ⟨hnew, h.nodup⟩
    · intro c' hc'
      rcases mem_cons.mp hc' with rfl | hc'
      · simp
      · exact mem_cons_of_mem _ (h.subset c' hc')
    · intro c' hc'
      rcases mem_cons.mp hc' with rfl | hc'
      · simp
      · exact mem_cons_of_mem _ (h.mem c' hc')
  · rename_i hold
    split at hc
    · rename_i hhead
      cases hc
      refine ⟨?_, h.nodup, fun c' hc' => mem_cons_of_mem _ (h.subset c' hc'), ?_, hhead⟩
      · rw [map_cons, grouped_cons, ← h.head]
        exact ⟨h.grouped, fun _ => hhead⟩
      · intro c' hc'
        rcases mem_cons.mp hc' with rfl | hc'
        · exact not_not.mp hold
        · exact h.mem c' hc'
    · cases hc

theorem addAll_collects : ∀ {cs sids : List (Control I A)}, addAll cs [] = .ok sids →
    Collects cs sids
  | [], sids, h => by
      cases h
      exact ⟨grouped_nil, by simp, by simp, by simp, rfl⟩
  | c :: cs, sids, h => by
      rw [addAll, bind_eq_ok] at h
      obtain ⟨sids', h', hc⟩ := h
      exact addOne_ok (addAll_collects h') hc

/-- **One ellipsis accepts its controls exactly when they come in groups.** -/
theorem addAll_ok_iff {cs : List (Control I A)} :
    (∃ sids, addAll cs [] = .ok sids) ↔ Grouped (cs.map Control.name) := by
  constructor
  · rintro ⟨sids, h⟩
    exact (addAll_collects h).grouped
  · intro hg
    induction cs with
    | nil => exact ⟨[], rfl⟩
    | cons c cs ih =>
        rw [map_cons, grouped_cons] at hg
        obtain ⟨sids, h⟩ := ih hg.1
        have hcol := addAll_collects h
        rw [addAll, h]
        change ∃ sids', addOne c sids = .ok sids'
        unfold addOne
        split
        · exact ⟨_, rfl⟩
        · rename_i hold
          have hmem : c.name ∈ cs.map Control.name := by
            obtain ⟨c', hc', hname⟩ := List.mem_map.mp (not_not.mp hold)
            exact List.mem_map.mpr ⟨c', hcol.subset c' hc', hname⟩
          rw [if_pos (hcol.head.trans (hg.2 hmem))]
          exact ⟨_, rfl⟩

/-! ## All the ellipses around a template -/

theorem addControl_length : ∀ {cs : List (Control I A)} {es es' : List (List (Control I A))},
    addControl cs es = .ok es' → es'.length = es.length
  | [], es, es', h => by
      cases h
      rfl
  | c :: cs, [], es', h => by
      cases h
  | c :: cs, sids :: es, es', h => by
      rw [addControl_cons, bind_eq_ok] at h
      obtain ⟨sids', -, h⟩ := h
      rw [bind_eq_ok] at h
      obtain ⟨es1, h1, h⟩ := h
      cases h
      rw [length_cons, length_cons, addControl_length h1]

variable [DecidableEq I]

/-- The controls of an identifier, innermost first; none if it is no pattern variable. -/
def controlsOf (sids : List (Sid I A)) (v : I) : List (Control I A) :=
  match sids.find? (fun sid => sid.name = v) with
  | some sid => sid.controls
  | none => []

/-- The outermost `level` controls of an identifier. -/
def outer (sids : List (Sid I A)) (level : Nat) (v : I) : List (Control I A) :=
  (controlsOf sids v).drop ((controlsOf sids v).length - level)

/-- The control of an identifier at the ellipsis with `level` others around it. -/
def levelControl (sids : List (Sid I A)) (level : Nat) (v : I) : Option (Control I A) :=
  (controlsOf sids v).reverse[level]?

/-- What a template with the identifiers `vs` does to the ellipses around it. -/
def effect (sids : List (Sid I A)) : List I → List (List (Control I A)) →
    Except SyntaxError (List (List (Control I A)))
  | [], ellipses => .ok ellipses
  | v :: vs, ellipses => do
      let ellipses' ← effect sids vs ellipses
      addControl (outer sids ellipses.length v) ellipses'

theorem effect_length {sids : List (Sid I A)} : ∀ {vs : List I}
    {es es' : List (List (Control I A))}, effect sids vs es = .ok es' → es'.length = es.length
  | [], es, es', h => by
      cases h
      rfl
  | v :: vs, es, es', h => by
      rw [effect, bind_eq_ok] at h
      obtain ⟨es1, h1, h⟩ := h
      rw [addControl_length h, effect_length h1]

theorem effect_append {sids : List (Sid I A)} : ∀ {us vs : List I}
    {es es' : List (List (Control I A))},
    effect sids (us ++ vs) es = .ok es'
      ↔ ∃ es1, effect sids vs es = .ok es1 ∧ effect sids us es1 = .ok es'
  | [], vs, es, es' => by
      constructor
      · intro h
        exact ⟨es', h, rfl⟩
      · rintro ⟨es1, h, h'⟩
        cases h'
        exact h
  | u :: us, vs, es, es' => by
      rw [cons_append, effect, bind_eq_ok]
      constructor
      · rintro ⟨es2, h2, h⟩
        obtain ⟨es1, h1, h2⟩ := effect_append.mp h2
        refine ⟨es1, h1, ?_⟩
        rw [effect, bind_eq_ok, effect_length h1]
        exact ⟨es2, h2, h⟩
      · rintro ⟨es1, h1, h⟩
        rw [effect, bind_eq_ok, effect_length h1] at h
        obtain ⟨es2, h2, h⟩ := h
        exact ⟨es2, effect_append.mpr ⟨es1, h1, h2⟩, h⟩

theorem outer_succ {sids : List (Sid I A)} {level : Nat} {v : I}
    (h : level < (controlsOf sids v).length) :
    ∃ c, levelControl sids level v = some c
      ∧ outer sids (level + 1) v = c :: outer sids level v := by
  unfold outer levelControl
  have hlt : (controlsOf sids v).length - (level + 1) < (controlsOf sids v).length := by omega
  refine ⟨(controlsOf sids v).get ⟨_, hlt⟩, ?_, ?_⟩
  · rw [List.getElem?_reverse h]
    rw [show (controlsOf sids v).length - 1 - level = (controlsOf sids v).length - (level + 1) by
      omega]
    exact List.getElem?_eq_getElem hlt
  · rw [drop_eq_getElem_cons hlt]
    congr 2
    omega

theorem effect_cons {sids : List (Sid I A)} : ∀ {vs : List I} {cell : List (Control I A)}
    {es es' : List (List (Control I A))},
    (∀ v ∈ vs, controlsOf sids v = [] ∨ es.length < (controlsOf sids v).length) →
    (effect sids vs (cell :: es) = .ok es'
      ↔ ∃ cell' es1, es' = cell' :: es1
        ∧ addAll (vs.filterMap (levelControl sids es.length)) cell = .ok cell'
        ∧ effect sids vs es = .ok es1)
  | [], cell, es, es', _ => by
      constructor
      · intro h
        cases h
        exact ⟨cell, es, rfl, rfl, rfl⟩
      · rintro ⟨cell', es1, rfl, h, h'⟩
        cases h
        cases h'
        rfl
  | v :: vs, cell, es, es', hv => by
      have ih := @effect_cons sids vs cell es
      rw [effect, length_cons]
      rcases hv v (by simp) with hnil | hlen
      · -- not a pattern variable: nothing happens
        have hout : ∀ n, outer sids n v = [] := by
          simp [outer, hnil]
        have hlev : levelControl sids es.length v = none := by simp [levelControl, hnil]
        rw [hout, filterMap_cons_none hlev, effect, hout]
        simp only [addControl, bind_eq_ok]
        constructor
        · rintro ⟨es2, h2, h⟩
          cases h
          obtain ⟨cell', es1, heq, h, h'⟩ := (ih (fun u hu => hv u (by simp [hu]))).mp h2
          exact ⟨cell', es1, heq, h, es1, h', rfl⟩
        · rintro ⟨cell', es1, rfl, h, es2, h', h2⟩
          cases h2
          exact ⟨_, (ih (fun u hu => hv u (by simp [hu]))).mpr ⟨cell', es1, rfl, h, h'⟩, rfl⟩
      · obtain ⟨c, hlev, hout⟩ := outer_succ hlen
        rw [hout, filterMap_cons_some hlev, effect, addAll]
        simp only [bind_eq_ok]
        constructor
        · rintro ⟨es2, h2, h⟩
          obtain ⟨cell', es1, rfl, ha, he⟩ := (ih (fun u hu => hv u (by simp [hu]))).mp h2
          rw [addControl_cons, bind_eq_ok] at h
          obtain ⟨cell2, hc, h⟩ := h
          rw [bind_eq_ok] at h
          obtain ⟨es3, h3, h⟩ := h
          cases h
          exact ⟨cell2, es3, rfl, ⟨cell', ha, hc⟩, es1, he, h3⟩
        · rintro ⟨cell2, es3, rfl, ⟨cell', ha, hc⟩, es1, he, h3⟩
          refine ⟨cell' :: es1, (ih (fun u hu => hv u (by simp [hu]))).mpr
            ⟨cell', es1, rfl, ha, he⟩, ?_⟩
          rw [addControl_cons, bind_eq_ok]
          refine ⟨cell2, hc, ?_⟩
          rw [bind_eq_ok]
          exact ⟨es3, h3, rfl⟩

end MitScheme.SyntaxRules
