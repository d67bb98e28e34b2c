import MitScheme.Runtime.Wind
import Mathlib.Data.List.Infix

/-!
# State spaces are trees

The winders around a point never change, so that the points are a tree once and for all. The pointers and
the thunks of all points are known from the tree and the root: a point around the root points inwards,
and any other one outwards.
-/

namespace MitScheme.Wind

open List Option

variable {τ : Type} {nests nests' : List (List (Winder τ))} {s s' : State τ} {p q : Nat} {w : Winder τ}
  {nest xs around : List (Winder τ)} {t : τ}

/-! ## Nests -/

/-- The point with some winders. -/
def pointOf : List (Winder τ) → Nat
  | [] => 0
  | w :: _ => w.point

/-- Each point is in one that was made before, and only the first one is in none. -/
structure Nested (nests : List (List (Winder τ))) : Prop where
  first : nests[0]? = some []
  only : ∀ p, nests[p]? = some [] → p = 0
  outer : ∀ p w nest, nests[p]? = some (w :: nest) →
    w.point = p ∧ nests[pointOf nest]? = some nest ∧ pointOf nest < p

theorem Nested.pointOf (h : Nested nests) (hp : nests[p]? = some nest) : pointOf nest = p := by
  cases nest with
  | nil => exact (h.only p hp).symm
  | cons w nest => exact (h.outer p w nest hp).1

theorem Nested.suffix (h : Nested nests) (hp : nests[p]? = some (xs ++ nest)) :
    nests[Wind.pointOf nest]? = some nest := by
  induction xs generalizing p with
  | nil =>
      rw [nil_append] at hp
      rw [h.pointOf hp]
      exact hp
  | cons w xs ih => exact ih (h.outer p w _ hp).2.1

theorem Nested.length_le (h : Nested nests) (hp : nests[p]? = some nest) : nest.length ≤ p := by
  induction nest generalizing p with
  | nil => exact Nat.zero_le p
  | cons w nest ih =>
      obtain ⟨-, houter, hlt⟩ := h.outer p w nest hp
      have := ih houter
      rw [length_cons]
      omega

theorem Nested.push (h : Nested nests) (hp : nests[p]? = some nest) (before after : τ) :
    Nested (nests ++ [⟨nests.length, before, after⟩ :: nest]) := by
  have hlt : ∀ q nest', nests[q]? = some nest' → q < nests.length := fun q _ hq =>
    (List.getElem?_eq_some_iff.mp hq).1
  have hcases : ∀ q nest', (nests ++ [⟨nests.length, before, after⟩ :: nest])[q]? = some nest' →
      nests[q]? = some nest' ∨ q = nests.length ∧ nest' = ⟨nests.length, before, after⟩ :: nest := by
    intro q nest' hq
    by_cases hlength : q < nests.length
    · rw [List.getElem?_append_left hlength] at hq
      exact .inl hq
    · have := (List.getElem?_eq_some_iff.mp hq).1
      rw [length_append, length_singleton] at this
      obtain rfl : q = nests.length := by omega
      rw [List.getElem?_concat_length] at hq
      exact .inr ⟨rfl, (Option.some.inj hq).symm⟩
  refine ⟨?_, fun q hq => ?_, fun q w nest' hq => ?_⟩
  · rw [List.getElem?_append_left (hlt 0 _ h.first)]
    exact h.first
  · rcases hcases q [] hq with hold | ⟨-, hnew⟩
    · exact h.only q hold
    · cases hnew
  · rcases hcases q _ hq with hold | ⟨rfl, hnew⟩
    · obtain ⟨hpoint, houter, hless⟩ := h.outer q w nest' hold
      refine ⟨hpoint, ?_, hless⟩
      rw [List.getElem?_append_left (hlt _ _ houter)]
      exact houter
    · cases hnew
      have hpoint := h.pointOf hp
      refine ⟨rfl, ?_, hpoint ▸ hlt p nest hp⟩
      rw [hpoint, List.getElem?_append_left (hlt p nest hp)]
      exact hp

/-! ## Pointers and thunks -/

/-- The pointers and the thunks are as the tree and the root have them. -/
structure Laid (nests : List (List (Winder τ))) (s : State τ) (around : List (Winder τ)) : Prop where
  length : s.points.length = nests.length
  root : nests[s.nearestPoint]? = some around
  nearest : s.points[s.nearestPoint]? = some ⟨none, .space, .false⟩
  inwards : ∀ xs w nest, around = xs ++ w :: nest →
    s.points[pointOf nest]? = some ⟨some w.point, .thunk w.before, .thunk w.after⟩
  outwards : ∀ (p : Nat) w nest, nests[p]? = some (w :: nest) → ¬ w :: nest <:+ around →
    s.points[p]? = some ⟨some (pointOf nest), .thunk w.after, .thunk w.before⟩

theorem not_suffix_of_lt {α : Type} {l₁ l₂ : List α} (h : l₂.length < l₁.length) : ¬ l₁ <:+ l₂ := fun hs => by
  have := hs.length_le
  omega

theorem moveRoot_spec {before : Field τ} (hq : s.points[q]? = some ⟨some p, before, .thunk t⟩)
    (hp : p < s.points.length) (hpq : p ≠ q) :
    ∃ s', s.moveRoot p q = some (t, s') ∧ s'.nearestPoint = q
      ∧ s'.points.length = s.points.length ∧ s'.points[q]? = some ⟨none, .space, .false⟩
      ∧ s'.points[p]? = some ⟨some q, .thunk t, before⟩
      ∧ ∀ r, r ≠ p → r ≠ q → s'.points[r]? = s.points[r]? := by
  have hlt : q < s.points.length := (List.getElem?_eq_some_iff.mp hq).1
  refine ⟨⟨(s.points.set p ⟨some q, .thunk t, before⟩).set q ⟨none, .space, .false⟩, q⟩, ?_, rfl, ?_, ?_,
    ?_, fun r hrp hrq => ?_⟩
  · simp only [State.moveRoot, hq, bind_eq_bind, bind_some, if_pos hp]
  · rw [length_set, length_set]
  · rw [List.getElem?_set_self (by rw [length_set]; exact hlt)]
  · rw [List.getElem?_set_ne hpq.symm, List.getElem?_set_self hp]
  · rw [List.getElem?_set_ne (Ne.symm hrq), List.getElem?_set_ne (Ne.symm hrp)]

theorem Nested.inj (h : Nested nests) (hp : nests[p]? = some nest) (hq : nests[q]? = some nest) :
    p = q := (h.pointOf hp).symm.trans (h.pointOf hq)

theorem Nested.winder (h : Nested nests) (hp : nests[p]? = some (xs ++ w :: nest)) :
    nests[w.point]? = some (w :: nest) := by
  have hinner := h.suffix hp
  exact hinner

theorem eq_of_append_suffix {α : Type} {x : α} {l ys zs : List α} (h : x :: l = ys ++ zs) :
    zs = x :: l ∨ ∃ ys', ys = x :: ys' ∧ l = ys' ++ zs := by
  cases ys with
  | nil => exact .inl h.symm
  | cons y ys' =>
      cases h
      exact .inr ⟨ys', rfl, rfl⟩

theorem Laid.leave (hn : Nested nests) (h : Laid nests s (w :: nest)) :
    ∃ s', s.moveRoot s.nearestPoint (pointOf nest) = some (w.after, s') ∧ Laid nests s' nest
      ∧ s'.nearestPoint = pointOf nest := by
  obtain ⟨hpoint, houter, hless⟩ := hn.outer _ w nest h.root
  have hlt := (List.getElem?_eq_some_iff.mp h.nearest).1
  have hq := h.inwards [] w nest rfl
  rw [hpoint] at hq
  obtain ⟨s', hs', hnearest, hlength, hself, hold, hother⟩ := moveRoot_spec hq hlt (by omega)
  refine ⟨s', hs', ⟨hlength.trans h.length, hnearest ▸ houter, hnearest ▸ hself, fun xs v rest heq => ?_,
    fun r v rest hr hnot => ?_⟩, hnearest⟩
  · -- a point farther out
    have hv : nests[v.point]? = some (v :: rest) := hn.winder (heq ▸ houter)
    have hrest := (hn.outer _ v rest hv).2.1
    have hlen := congrArg List.length heq
    rw [length_append, length_cons] at hlen
    rw [hother _ (fun hr => ?_) fun hr => ?_]
    · exact h.inwards (w :: xs) v rest (by rw [heq]; rfl)
    · rw [hr, h.root] at hrest
      have := congrArg List.length (Option.some.inj hrest)
      rw [length_cons] at this
      omega
    · rw [hr, houter] at hrest
      have := congrArg List.length (Option.some.inj hrest)
      omega
  · by_cases hroot : r = s.nearestPoint
    · subst hroot
      rw [h.root] at hr
      cases hr
      exact hold
    · have hne : r ≠ pointOf nest := fun heq => by
        rw [heq, houter] at hr
        exact hnot (Option.some.inj hr ▸ suffix_refl _)
      rw [hother r hroot hne]
      refine h.outwards r v rest hr fun hsuffix => ?_
      rcases suffix_cons_iff.mp hsuffix with heq | hin
      · exact hroot (hn.inj hr (heq ▸ h.root))
      · exact hnot hin

theorem Laid.enter (hn : Nested nests) (h : Laid nests s nest) (hq : nests[q]? = some (w :: nest)) :
    ∃ s', s.moveRoot s.nearestPoint q = some (w.before, s') ∧ Laid nests s' (w :: nest)
      ∧ s'.nearestPoint = q := by
  obtain ⟨hpoint, houter, hless⟩ := hn.outer q w nest hq
  have hroot := hn.pointOf h.root
  have hlt := (List.getElem?_eq_some_iff.mp h.nearest).1
  have hnot : ¬ w :: nest <:+ nest := not_suffix_of_lt (by rw [length_cons]; omega)
  have hpq := h.outwards q w nest hq hnot
  rw [hroot] at hpq
  obtain ⟨s', hs', hnearest, hlength, hself, hold, hother⟩ := moveRoot_spec hpq hlt (by omega)
  refine ⟨s', hs', ⟨hlength.trans h.length, hnearest ▸ hq, hnearest ▸ hself, fun xs v rest heq => ?_,
    fun r v rest hr hnotin => ?_⟩, hnearest⟩
  · rcases eq_of_append_suffix heq with hsame | ⟨ys, rfl, hys⟩
    · cases hsame
      rw [hroot, hold, hpoint]
    · have hv : nests[v.point]? = some (v :: rest) := hn.winder (hys ▸ h.root)
      have hrest := (hn.outer _ v rest hv).2.1
      have hlen := congrArg List.length hys
      rw [length_append, length_cons] at hlen
      rw [hother _ (fun hr => ?_) fun hr => ?_]
      · exact h.inwards ys v rest hys
      · rw [hr, h.root] at hrest
        have := congrArg List.length (Option.some.inj hrest)
        omega
      · rw [hr, hq] at hrest
        have := congrArg List.length (Option.some.inj hrest)
        rw [length_cons] at this
        omega
  · have hnot' : ¬ v :: rest <:+ nest := fun hin => hnotin (hin.trans (suffix_cons w nest))
    rw [hother r (fun heq => ?_) fun heq => ?_]
    · exact h.outwards r v rest hr hnot'
    · rw [heq, h.root] at hr
      exact hnot' (Option.some.inj hr ▸ suffix_refl _)
    · rw [heq, hq] at hr
      exact hnotin (Option.some.inj hr ▸ suffix_refl _)

theorem Laid.push (hn : Nested nests) (h : Laid nests s nest) (before after : τ) :
    ∃ s', s.enter s.nearestPoint before after = some s'
      ∧ Laid (nests ++ [⟨nests.length, before, after⟩ :: nest]) s'
        (⟨nests.length, before, after⟩ :: nest) := by
  have hlt := (List.getElem?_eq_some_iff.mp h.nearest).1
  have hroot := hn.pointOf h.root
  have hold : ∀ r, r ≠ s.nearestPoint → r < s.points.length →
      (s.points.set s.nearestPoint ⟨some s.points.length, .thunk before, .thunk after⟩
        ++ [⟨none, .space, .false⟩])[r]? = s.points[r]? := by
    intro r hr hless
    rw [List.getElem?_append_left (by rw [length_set]; exact hless), List.getElem?_set_ne hr.symm]
  refine ⟨_, if_pos hlt, ?_, ?_, ?_, fun xs v rest heq => ?_, fun r v rest hr hnot => ?_⟩
  · rw [length_append, length_set, length_append, h.length]
    rfl
  · rw [h.length, List.getElem?_concat_length]
  · rw [List.getElem?_append_right (by rw [length_set]), length_set, Nat.sub_self]
    rfl
  · rcases eq_of_append_suffix heq with hsame | ⟨ys, rfl, hys⟩
    · cases hsame
      rw [hroot, List.getElem?_append_left (by rw [length_set]; exact hlt),
        List.getElem?_set_self hlt, h.length]
    · have hv : nests[v.point]? = some (v :: rest) := hn.winder (hys ▸ h.root)
      have hrest := (hn.outer _ v rest hv).2.1
      have hlen := congrArg List.length hys
      rw [length_append, length_cons] at hlen
      rw [hold _ (fun hr => ?_) (h.length ▸ (List.getElem?_eq_some_iff.mp hrest).1)]
      · exact h.inwards ys v rest hys
      · rw [hr, h.root] at hrest
        have := congrArg List.length (Option.some.inj hrest)
        omega
  · by_cases hless : r < nests.length
    · rw [List.getElem?_append_left hless] at hr
      have hnot' : ¬ v :: rest <:+ nest := fun hin => hnot (hin.trans (suffix_cons _ nest))
      rw [hold r (fun heq => ?_) (h.length ▸ hless)]
      · exact h.outwards r v rest hr hnot'
      · rw [heq, h.root] at hr
        exact hnot' (Option.some.inj hr ▸ suffix_refl _)
    · have hlast := (List.getElem?_eq_some_iff.mp hr).1
      rw [length_append, length_singleton] at hlast
      obtain rfl : r = nests.length := by omega
      rw [List.getElem?_concat_length] at hr
      exact absurd (Option.some.inj hr ▸ suffix_refl _) hnot

/-! ## Ways -/

/-- One of two points was made in the other one. -/
def Adjacent (nests : List (List (Winder τ))) (p q : Nat) : Prop :=
  ∃ w nest, nests[p]? = some (w :: nest) ∧ nests[q]? = some nest
    ∨ nests[q]? = some (w :: nest) ∧ nests[p]? = some nest

theorem Adjacent.symm (h : Adjacent nests p q) : Adjacent nests q p := by
  obtain ⟨w, nest, h⟩ := h
  exact ⟨w, nest, h.symm⟩

/-- Points next to each other, without a step back. -/
def Way (nests : List (List (Winder τ))) : List Nat → Prop
  | [] => True
  | p :: chain => p < nests.length ∧ (∀ q ∈ chain.head?, Adjacent nests p q)
      ∧ (∀ r ∈ chain.tail.head?, p ≠ r) ∧ Way nests chain

/-- The pointer of a point. -/
def State.nearer (s : State τ) (p : Nat) : Option Nat := (s.points[p]?).bind Point.nearerPoint

theorem Laid.cases (hn : Nested nests) (h : Laid nests s around) (hp : nests[p]? = some nest) :
    (p = s.nearestPoint ∧ nest = around)
      ∨ (∃ xs w, around = xs ++ w :: nest
        ∧ s.points[p]? = some ⟨some w.point, .thunk w.before, .thunk w.after⟩)
      ∨ (∃ w rest, nest = w :: rest ∧ ¬ nest <:+ around
        ∧ s.points[p]? = some ⟨some (pointOf rest), .thunk w.after, .thunk w.before⟩) := by
  have hpoint := hn.pointOf hp
  by_cases hsuffix : nest <:+ around
  · obtain ⟨ys, hys⟩ := hsuffix
    rcases eq_nil_or_concat ys with rfl | ⟨xs, w, rfl⟩
    · rw [nil_append] at hys
      exact .inl ⟨hn.inj hp (hys ▸ h.root), hys⟩
    · rw [concat_eq_append, append_assoc] at hys
      refine .inr (.inl ⟨xs, w, hys.symm, ?_⟩)
      rw [← hpoint]
      exact h.inwards xs w nest hys.symm
  · cases nest with
    | nil => exact absurd (nil_suffix) hsuffix
    | cons w rest => exact .inr (.inr ⟨w, rest, rfl, hsuffix, h.outwards p w rest hp hsuffix⟩)

theorem Laid.nearer_root (h : Laid nests s around) : s.nearer s.nearestPoint = none := by
  rw [State.nearer, h.nearest]
  rfl

theorem Laid.nearer_eq_none (hn : Nested nests) (h : Laid nests s around) (hp : p < nests.length)
    (hnone : s.nearer p = none) : p = s.nearestPoint := by
  rcases h.cases hn (List.getElem?_eq_getElem hp) with ⟨hroot, -⟩ | ⟨xs, w, -, hpoint⟩
    | ⟨w, rest, -, -, hpoint⟩
  · exact hroot
  · rw [State.nearer, hpoint] at hnone
    cases hnone
  · rw [State.nearer, hpoint] at hnone
    cases hnone

theorem Laid.adjacent (hn : Nested nests) (h : Laid nests s around) (hp : p < nests.length)
    (hq : s.nearer p = some q) : Adjacent nests p q := by
  have hnest := List.getElem?_eq_getElem hp
  rcases h.cases hn hnest with ⟨hroot, -⟩ | ⟨xs, w, haround, hpoint⟩ | ⟨w, rest, hcons, -, hpoint⟩
  · rw [hroot, h.nearer_root] at hq
    cases hq
  · rw [State.nearer, hpoint] at hq
    cases hq
    exact ⟨w, _, .inr ⟨hn.winder (haround ▸ h.root), hnest⟩⟩
  · rw [State.nearer, hpoint] at hq
    cases hq
    rw [hcons] at hnest
    exact ⟨w, rest, .inl ⟨hnest, (hn.outer p w rest hnest).2.1⟩⟩

/-- How far it is to the root, or farther. -/
noncomputable def distance (around nest : List (Winder τ)) : Nat :=
  open Classical in if nest <:+ around then around.length - nest.length
  else nest.length + around.length

theorem distance_inwards (w : Winder τ) (haround : around = xs ++ w :: nest) :
    distance around (w :: nest) < distance around nest := by
  have hlength := congrArg List.length haround
  rw [length_append, length_cons] at hlength
  have hin : w :: nest <:+ around := ⟨xs, haround.symm⟩
  rw [distance, distance, if_pos hin, if_pos ((suffix_cons w nest).trans hin), length_cons]
  omega

theorem distance_outwards (w : Winder τ) (hnot : ¬ w :: nest <:+ around) :
    distance around nest < distance around (w :: nest) := by
  rw [distance, distance, length_cons]
  split <;> omega

theorem Laid.distance_lt (hn : Nested nests) (h : Laid nests s around) {nest' : List (Winder τ)}
    (hp : nests[p]? = some nest) (hq : s.nearer p = some q) (hq' : nests[q]? = some nest') :
    distance around nest' < distance around nest := by
  rcases h.cases hn hp with ⟨hroot, -⟩ | ⟨xs, w, haround, hpoint⟩ | ⟨w, rest, rfl, hnot, hpoint⟩
  · rw [hroot, h.nearer_root] at hq
    cases hq
  · rw [State.nearer, hpoint] at hq
    cases hq
    rw [hn.winder (haround ▸ h.root)] at hq'
    cases hq'
    exact distance_inwards w haround
  · rw [State.nearer, hpoint] at hq
    cases hq
    rw [(hn.outer p w rest hp).2.1] at hq'
    cases hq'
    exact distance_outwards w hnot

theorem Adjacent.lt (h : Adjacent nests p q) : q < nests.length := by
  obtain ⟨w, nest, ⟨-, hq⟩ | ⟨hq, -⟩⟩ := h
  · exact (List.getElem?_eq_some_iff.mp hq).1
  · exact (List.getElem?_eq_some_iff.mp hq).1

theorem Laid.no_return (hn : Nested nests) (h : Laid nests s around) (hp : p < nests.length)
    (hq : s.nearer p = some q) : s.nearer q ≠ some p := by
  intro hback
  have hlt := (h.adjacent hn hp hq).lt
  have hone := h.distance_lt hn (List.getElem?_eq_getElem hp) hq (List.getElem?_eq_getElem hlt)
  have htwo := h.distance_lt hn (List.getElem?_eq_getElem hlt) hback (List.getElem?_eq_getElem hp)
  omega

theorem State.nearer_eq_some (h : s.nearer p = some q) :
    ∃ point, s.points[p]? = some point ∧ point.nearerPoint = some q := by
  rw [State.nearer, bind_eq_some_iff] at h
  exact h

theorem findNearest_spec (hn : Nested nests) (h : Laid nests s around) (fuel : Nat) {chain : List Nat}
    (hway : Way nests (p :: chain)) (hback : ∀ q ∈ chain.head?, s.nearer p ≠ some q)
    (hp : nests[p]? = some nest) (hfuel : distance around nest < fuel) :
    ∃ ys, findNearest s.points fuel p chain = some (s.nearestPoint, ys ++ chain)
      ∧ Way nests (s.nearestPoint :: (ys ++ chain))
      ∧ (s.nearestPoint :: (ys ++ chain)).getLast? = (p :: chain).getLast? := by
  induction fuel generalizing p nest chain with
  | zero => omega
  | succ fuel ih =>
      have hlt : p < nests.length := hway.1
      cases hnearer : s.nearer p with
      | none =>
          obtain rfl := h.nearer_eq_none hn hlt hnearer
          refine ⟨[], ?_, hway, rfl⟩
          rw [findNearest, h.nearest]
          rfl
      | some q =>
          obtain ⟨point, hpoint, hq⟩ := State.nearer_eq_some hnearer
          have hadjacent := h.adjacent hn hlt hnearer
          have hqlt := hadjacent.lt
          have hqnest := List.getElem?_eq_getElem hqlt
          have hway' : Way nests (q :: p :: chain) := by
            refine ⟨hqlt, fun r hr => ?_, fun r hr => ?_, hway⟩
            · cases hr
              exact hadjacent.symm
            · intro heq
              exact hback r hr (heq ▸ hnearer)
          have hback' : ∀ r ∈ (p :: chain).head?, s.nearer q ≠ some r := by
            intro r hr
            cases hr
            exact h.no_return hn hlt hnearer
          have hless := h.distance_lt hn hp hnearer hqnest
          obtain ⟨ys, hys, hway'', hlast⟩ := ih hway' hback' hqnest (by omega)
          refine ⟨ys ++ [p], ?_, ?_, ?_⟩
          · rw [findNearest, hpoint]
            simp only [bind_eq_bind, bind_some, hq, hys, append_assoc,
              singleton_append]
          · rw [append_assoc]
            exact hway''
          · rw [append_assoc]
            exact hlast.trans List.getLast?_cons_cons

/-- What holds when a translation calls a thunk, or returns. -/
def Outcome.Towards (nests : List (List (Winder τ))) (target : Nat) : Outcome τ → Prop
  | .returns s => (∃ around, Laid nests s around) ∧ s.nearestPoint = target
  | .calls _ s chain => (∃ around, Laid nests s around) ∧ Way nests chain
      ∧ chain.head? = some s.nearestPoint ∧ chain.getLast? = some target

theorem Laid.traverseChain (hn : Nested nests) (h : Laid nests s around) {chain : List Nat}
    {target : Nat} (hway : Way nests (s.nearestPoint :: chain))
    (hlast : (s.nearestPoint :: chain).getLast? = some target) :
    ∃ outcome, s.traverseChain s.nearestPoint chain = some outcome ∧ outcome.Towards nests target := by
  cases chain with
  | nil => exact ⟨.returns s, rfl, ⟨around, h⟩, Option.some.inj hlast⟩
  | cons q chain =>
      obtain ⟨-, hadjacent, -, hrest⟩ := hway
      obtain ⟨w, nest, ⟨hroot, hq⟩ | ⟨hq, hroot⟩⟩ := hadjacent q rfl
      · -- outwards
        rw [h.root] at hroot
        cases hroot
        obtain ⟨s', hs', hlaid, hnearest⟩ := h.leave hn
        rw [hn.pointOf hq] at hs' hnearest
        refine ⟨.calls w.after s' (q :: chain), ?_, ⟨nest, hlaid⟩, hrest, by rw [hnearest]; rfl, hlast⟩
        rw [State.traverseChain, hs']
        rfl
      · -- inwards
        rw [h.root] at hroot
        cases hroot
        obtain ⟨s', hs', hlaid, hnearest⟩ := h.enter hn hq
        refine ⟨.calls w.before s' (q :: chain), ?_, ⟨_, hlaid⟩, hrest, by rw [hnearest]; rfl, hlast⟩
        rw [State.traverseChain, hs']
        rfl

theorem Nested.fuel (hn : Nested nests) (h : Laid nests s around) (hp : nests[p]? = some nest) :
    distance around nest < 2 * s.points.length + 1 := by
  have hnest := hn.length_le hp
  have haround := hn.length_le h.root
  have hp' := (List.getElem?_eq_some_iff.mp hp).1
  have hroot := (List.getElem?_eq_some_iff.mp h.root).1
  have hlength := h.length
  rw [distance]
  split <;> omega

theorem Laid.findAndTraverse (hn : Nested nests) (h : Laid nests s around) {chain : List Nat}
    {target : Nat} (hway : Way nests (p :: chain)) (hback : ∀ q ∈ chain.head?, s.nearer p ≠ some q)
    (hlast : (p :: chain).getLast? = some target) :
    ∃ outcome, s.findAndTraverse p chain = some outcome ∧ outcome.Towards nests target := by
  have hp := List.getElem?_eq_getElem hway.1
  obtain ⟨ys, hys, hway', hlast'⟩ := findNearest_spec hn h _ hway hback hp (hn.fuel h hp)
  obtain ⟨outcome, houtcome, htowards⟩ := h.traverseChain hn hway' (hlast'.trans hlast)
  refine ⟨outcome, ?_, htowards⟩
  simp only [State.findAndTraverse, hys, h.nearest, bind_eq_bind, bind_some]
  exact houtcome

theorem Laid.translateToStatePoint (hn : Nested nests) (h : Laid nests s around)
    (hp : p < nests.length) :
    ∃ outcome, s.translateToStatePoint p = some outcome ∧ outcome.Towards nests p :=
  h.findAndTraverse hn ⟨hp, nofun, nofun, trivial⟩ nofun rfl

theorem Laid.findRoot (hn : Nested nests) (h : Laid nests s around) (chain : List Nat) {target : Nat}
    (hway : Way nests chain) (hlast : chain.getLast? = some target) :
    ∃ outcome, s.findRoot chain = some outcome ∧ outcome.Towards nests target := by
  induction chain with
  | nil => cases hlast
  | cons p chain ih =>
      have hlt : p < nests.length := hway.1
      cases hnearer : s.nearer p with
      | none =>
          obtain rfl := h.nearer_eq_none hn hlt hnearer
          obtain ⟨outcome, houtcome, htowards⟩ := h.traverseChain hn hway hlast
          refine ⟨outcome, ?_, htowards⟩
          rw [State.findRoot, h.nearest]
          exact houtcome
      | some q =>
          obtain ⟨point, hpoint, hq⟩ := State.nearer_eq_some hnearer
          have hadjacent := h.adjacent hn hlt hnearer
          rw [State.findRoot, hpoint]
          simp only [bind_eq_bind, bind_some, hq]
          by_cases hhead : chain.head? = some q
          · rw [if_pos hhead]
            refine ih hway.2.2.2 ?_
            cases chain with
            | nil => cases hhead
            | cons r rest => rwa [List.getLast?_cons_cons] at hlast
          · rw [if_neg hhead]
            refine h.findAndTraverse hn ⟨hadjacent.lt, fun r hr => ?_, fun r hr heq => ?_, hway⟩
              (fun r hr => ?_) (List.getLast?_cons_cons.trans hlast)
            · cases hr
              exact hadjacent.symm
            · exact hhead (heq ▸ hr)
            · cases hr
              exact h.no_return hn hlt hnearer

end MitScheme.Wind
