import Mathlib.Data.List.Perm.Basic
import Mathlib.Order.Lattice

/-!
# Sorting by a strict weak order

Elements of which neither goes before the other are ties. A stable sort puts the elements in order and
leaves ties in the order they had.
-/

namespace MitScheme.Sorting

open List

variable {α : Type} (lt : α → α → Bool)

/-- Neither of two elements goes before the other. -/
def tie (a b : α) : Bool := !lt a b && !lt b a

/-- An element may stay before another one. -/
def notAfter (a b : α) : Bool := !lt b a

/-- No element goes before an earlier one. -/
def InOrder (l : List α) : Prop := l.Pairwise fun a b => lt b a = false

/-- One list is a sort of another one. -/
structure Sorts (l sorted : List α) : Prop where
  perm : sorted.Perm l
  inOrder : InOrder lt sorted

/-- One list is a sort of another one, with ties in the order they had. -/
structure StablySorts (l sorted : List α) : Prop extends Sorts lt l sorted where
  ties : ∀ a, sorted.filter (tie lt a) = l.filter (tie lt a)

variable {lt}

/-! ## The order -/

theorem tie_iff {a b : α} : tie lt a b = true ↔ lt a b = false ∧ lt b a = false := by
  unfold tie
  rw [Bool.and_eq_true, Bool.not_eq_true', Bool.not_eq_true']

section Order

variable (hlt : IsStrictWeakOrder α fun a b => lt a b = true)
include hlt

theorem lt_irrefl (a : α) : lt a a = false := by
  rw [← Bool.not_eq_true]
  exact hlt.irrefl a

theorem lt_asymm {a b : α} (h : lt a b = true) : lt b a = false := by
  rw [← Bool.not_eq_true]
  intro h'
  exact hlt.irrefl a (hlt.trans a b a h h')

theorem not_lt_trans {a b c : α} (hab : lt b a = false) (hbc : lt c b = false) : lt c a = false := by
  rw [← Bool.not_eq_true] at hab hbc ⊢
  intro hca
  have hab' : ¬ lt a b = true := fun h => hbc (hlt.trans c a b hca h)
  have hbc' : ¬ lt b c = true := fun h => hab (hlt.trans b c a h hca)
  exact (hlt.incomp_trans a b c ⟨hab', hab⟩ ⟨hbc', hbc⟩).2 hca

theorem not_lt_total (a b : α) : lt b a = false ∨ lt a b = false := by
  cases h : lt b a with
  | false => exact Or.inl rfl
  | true => exact Or.inr (lt_asymm hlt h)

theorem lt_of_lt_of_not_lt {a b c : α} (hab : lt a b = true) (hbc : lt c b = false) : lt a c = true := by
  by_contra hac
  rw [Bool.not_eq_true] at hac
  rw [not_lt_trans hlt hbc hac] at hab
  cases hab

end Order

theorem strictWeak_of_key {β : Type} [LinearOrder β] (key : α → β) :
    IsStrictWeakOrder α fun a b => decide (key a < key b) = true where
  irrefl a := by simp
  trans a b c hab hbc := by
    simp only [decide_eq_true_eq] at hab hbc ⊢
    exact lt_trans hab hbc
  incomp_trans a b c hab hbc := by
    simp only [decide_eq_true_eq, not_lt] at hab hbc ⊢
    exact ⟨le_trans hbc.1 hab.1, le_trans hab.2 hbc.2⟩

theorem InOrder.nil : InOrder lt [] := List.Pairwise.nil

theorem InOrder.singleton (a : α) : InOrder lt [a] := pairwise_singleton _ a

theorem StablySorts.refl {l : List α} (h : InOrder lt l) : StablySorts lt l l :=
  ⟨⟨List.Perm.refl l, h⟩, fun _ => rfl⟩

theorem InOrder.append {l r : List α} (hl : InOrder lt l) (hr : InOrder lt r)
    (h : ∀ a ∈ l, ∀ b ∈ r, lt b a = false) : InOrder lt (l ++ r) :=
  pairwise_append.mpr ⟨hl, hr, h⟩

theorem length_eq {l sorted : List α} (h : Sorts lt l sorted) : sorted.length = l.length :=
  h.perm.length_eq

/-! ## Merging -/

theorem cons_merge_of_lt {x y : α} (h : lt y x = true) (l r : List α) :
    (x :: l).merge (y :: r) (notAfter lt) = y :: (x :: l).merge r (notAfter lt) :=
  cons_merge_cons_neg (notAfter lt) l r (by rw [notAfter, h]; exact Bool.false_ne_true)

theorem cons_merge_of_not_lt {x y : α} (h : lt y x = false) (l r : List α) :
    (x :: l).merge (y :: r) (notAfter lt) = x :: l.merge (y :: r) (notAfter lt) :=
  cons_merge_cons_pos (notAfter lt) l r (by rw [notAfter, h]; rfl)

section Merging

variable (hlt : IsStrictWeakOrder α fun a b => lt a b = true)
include hlt

theorem InOrder.merge {l r : List α} (hl : InOrder lt l) (hr : InOrder lt r) :
    InOrder lt (l.merge r (notAfter lt)) := by
  have hle : ∀ a b : α, notAfter lt a b = true ↔ lt b a = false := fun a b => by
    rw [notAfter, Bool.not_eq_true']
  have htrans : ∀ a b c : α, notAfter lt a b = true → notAfter lt b c = true → notAfter lt a c = true := by
    intro a b c hab hbc
    rw [hle] at hab hbc ⊢
    exact not_lt_trans hlt hab hbc
  have htotal : ∀ a b : α, (notAfter lt a b || notAfter lt b a) = true := by
    intro a b
    rw [Bool.or_eq_true, hle, hle]
    exact not_lt_total hlt a b
  have hmerge := pairwise_merge htrans htotal l r (hl.imp fun h => (hle _ _).mpr h)
    (hr.imp fun h => (hle _ _).mpr h)
  exact hmerge.imp fun h => (hle _ _).mp h

/-- **Merging keeps ties in order**, those of the left list first. -/
theorem merge_ties (a : α) {l r : List α} (hl : InOrder lt l) :
    (l.merge r (notAfter lt)).filter (tie lt a) = l.filter (tie lt a) ++ r.filter (tie lt a) := by
  induction l, r using List.merge.induct (notAfter lt) with
  | case1 r => rw [nil_merge, filter_nil, nil_append]
  | case2 l => rw [merge_right, filter_nil, append_nil]
  | case3 x l y r hle ih =>
      rw [cons_merge_cons_pos _ _ _ hle, filter_cons, @filter_cons α x l,
        ih (pairwise_cons.mp hl).2]
      split <;> rfl
  | case4 x l y r hle ih =>
      have hyx : lt y x = true := by
        rw [notAfter, Bool.not_eq_true', Bool.not_eq_false] at hle
        exact hle
      rw [cons_merge_cons_neg _ _ _ hle, filter_cons, ih hl, filter_cons (x := y)]
      split
      · -- the left list has nothing that ties with the element
        rename_i htie
        have hnone : (x :: l).filter (tie lt a) = [] := by
          rw [filter_eq_nil_iff]
          intro z hz hatie
          have hxz : lt z x = false := by
            rcases mem_cons.mp hz with rfl | hz
            · exact lt_irrefl hlt z
            · exact (pairwise_cons.mp hl).1 z hz
          have hyz := lt_of_lt_of_not_lt hlt hyx hxz
          rw [not_lt_trans hlt (tie_iff.mp hatie).1 (tie_iff.mp htie).2] at hyz
          cases hyz
        rw [hnone]
        rfl
      · rfl

/-- **Two sorted parts, merged**, are a sort of the whole. -/
theorem StablySorts.merge {l r sl sr : List α} (hl : StablySorts lt l sl) (hr : StablySorts lt r sr) :
    StablySorts lt (l ++ r) (sl.merge sr (notAfter lt)) where
  perm := (merge_perm_append _).trans (hl.perm.append hr.perm)
  inOrder := hl.inOrder.merge hlt hr.inOrder
  ties a := by rw [merge_ties hlt a hl.inOrder, hl.ties, hr.ties, filter_append]

end Merging

end MitScheme.Sorting
