import Mathlib.Data.List.Basic

/-!
# Parts of trees

The nodes of a tree whose edges are marked or not: a part lies under a mark when an edge on the way down to it is
marked. What some part is, is found at the node itself or below one of its children.
-/

namespace MitScheme.Parts

variable {α : Type} {children : α → List (Bool × α)} {P : α → Prop}

/-- The parts of a node, and whether they lie under a mark. -/
inductive PartOf (children : α → List (Bool × α)) : Bool → α → α → Prop
  | self (e : α) : PartOf children false e e
  | child {mark under : Bool} {part c e : α} : (mark, c) ∈ children e → PartOf children under part c →
      PartOf children (mark || under) part e

/-- Some part is so. -/
def Has (children : α → List (Bool × α)) (P : α → Prop) (e : α) : Prop :=
  ∃ under part, PartOf children under part e ∧ P part

/-- Some part that does not lie under a mark is so. -/
def HasOutside (children : α → List (Bool × α)) (P : α → Prop) (e : α) : Prop :=
  ∃ part, PartOf children false part e ∧ P part

theorem has_iff {e : α} : Has children P e ↔ P e ∨ ∃ mark c, (mark, c) ∈ children e ∧ Has children P c := by
  constructor
  · rintro ⟨under, part, hpart, hP⟩
    cases hpart with
    | self => exact Or.inl hP
    | child hmem hrest => exact Or.inr ⟨_, _, hmem, _, part, hrest, hP⟩
  · intro h
    rcases h with hP | ⟨mark, c, hmem, under, part, hpart, hP⟩
    · exact ⟨false, e, .self e, hP⟩
    · exact ⟨mark || under, part, .child hmem hpart, hP⟩

theorem hasOutside_iff {e : α} :
    HasOutside children P e ↔ P e ∨ ∃ c, (false, c) ∈ children e ∧ HasOutside children P c := by
  constructor
  · rintro ⟨part, hpart, hP⟩
    generalize hunder : false = under at hpart
    cases hpart with
    | self => exact Or.inl hP
    | @child mark under' _ c _ hmem hrest =>
        obtain ⟨rfl, rfl⟩ := Bool.or_eq_false_iff.mp hunder.symm
        exact Or.inr ⟨c, hmem, part, hrest, hP⟩
  · intro h
    rcases h with hP | ⟨c, hmem, part, hpart, hP⟩
    · exact ⟨e, .self e, hP⟩
    · exact ⟨part, .child hmem hpart, hP⟩

theorem HasOutside.has {e : α} (h : HasOutside children P e) : Has children P e := by
  obtain ⟨part, hpart, hP⟩ := h
  exact ⟨false, part, hpart, hP⟩

end MitScheme.Parts
