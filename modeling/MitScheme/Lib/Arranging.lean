import Mathlib.Data.List.Chain
import Mathlib.Data.List.Sort
import Mathlib.Order.Nat
import MitScheme.Lib.Sorting

/-!
# Sorting the runs of a list

The elements of a list have weights. An element of weight zero stays where it is, and the run of elements
between two of them is sorted by weight, elements of the same weight staying in order.
-/

namespace MitScheme.Arranging

open Sorting List

variable {α : Type} (weight : α → Nat)

/-- An element may stand right before another one. -/
def Before (x y : α) : Prop := weight y = 0 ∨ weight x ≤ weight y

/-- No run has to be sorted. -/
def Arranged (l : List α) : Prop := l.IsChain (Before weight)

/-- An element is put after some others, the last of which comes first here. -/
def place (done : List α) (x : α) : List α :=
  if weight x = 0 then x :: done else done.orderedInsert (fun x y => weight y ≤ weight x) x

def arrange (l : List α) : List α := (l.foldl (place weight) []).reverse

/-- Two lists that end up the same after anything. -/
def Alike (l l' : List α) : Prop :=
  ∀ done, l.foldl (place weight) done = l'.foldl (place weight) done

variable {weight}

variable {done l r : List α} {x y : α}

theorem place_eq_cons (h : ∀ y ∈ done.head?, Before weight y x) :
    place weight done x = x :: done := by
  rw [place]
  by_cases hx : weight x = 0
  · rw [if_pos hx]
  · rw [if_neg hx]
    cases done with
    | nil => rfl
    | cons y done =>
        rcases h y rfl with hzero | hle
        · exact absurd hzero hx
        · exact orderedInsert_cons_of_le _ done hle

theorem place_of_zero (h : weight x = 0) : place weight done x = x :: done :=
  if_pos h

theorem place_of_lt (hx : weight x ≠ 0) (h : weight x < weight y) :
    place weight (y :: done) x = y :: place weight done x := by
  rw [place, place, if_neg hx, if_neg hx]
  exact orderedInsert_of_not_le _ done (by omega)

theorem perm_place (done : List α) (x : α) : (place weight done x).Perm (x :: done) := by
  rw [place]
  split
  · exact .refl _
  · exact perm_orderedInsert _ x done

theorem place_swap (hx : weight x ≠ 0) (hy : weight y ≠ 0) (hne : weight x < weight y)
    (done : List α) : place weight (place weight done x) y = place weight (place weight done y) x := by
  induction done with
  | nil =>
      have hfirst : ∀ z : α, place weight [] z = [z] := fun z => place_eq_cons nofun
      rw [hfirst, hfirst, place_of_lt hx hne, hfirst]
      exact place_eq_cons fun z hz => by cases hz; exact .inr hne.le
  | cons z done ih =>
      have hx_or : weight x < weight z ∨ weight z ≤ weight x := Nat.lt_or_ge _ _
      have hy_or : weight y < weight z ∨ weight z ≤ weight y := Nat.lt_or_ge _ _
      have hstay : ∀ {u v : α} {done : List α}, weight v ≤ weight u → place weight (v :: done) u = u :: v :: done :=
        fun h => place_eq_cons fun w hw => by cases hw; exact .inr h
      rcases hx_or with hlt | hle
      · rw [place_of_lt hx hlt]
        rcases hy_or with hlt' | hle'
        · rw [place_of_lt hy hlt', place_of_lt hy hlt', place_of_lt hx hlt, ih]
        · rw [hstay hle', hstay hle', place_of_lt hx hne, place_of_lt hx hlt]
      · rw [hstay hle, hstay hne.le, hstay (hle.trans hne.le), place_of_lt hx hne, hstay hle]

/-! ## Lists that end up the same -/

theorem Alike.refl (l : List α) : Alike weight l l := fun _ => rfl

theorem Alike.symm {l l' : List α} (h : Alike weight l l') : Alike weight l' l := fun done => (h done).symm

theorem Alike.trans {l l' l'' : List α} (h : Alike weight l l') (h' : Alike weight l' l'') :
    Alike weight l l'' := fun done => (h done).trans (h' done)

theorem Alike.append {l' r' : List α} (h : Alike weight l l') (h' : Alike weight r r') :
    Alike weight (l ++ r) (l' ++ r') := by
  intro done
  rw [foldl_append, foldl_append, h done, h']

theorem Alike.cons (x : α) {l l' : List α} (h : Alike weight l l') : Alike weight (x :: l) (x :: l') :=
  fun done => h (place weight done x)

theorem Alike.arrange_eq {l' : List α} (h : Alike weight l l') : arrange weight l = arrange weight l' :=
  congrArg List.reverse (h [])

theorem alike_move (hx : weight x ≠ 0) (h : ∀ y ∈ l, weight y ≠ 0 ∧ weight y ≠ weight x) :
    Alike weight (l ++ [x]) (x :: l) := by
  induction l with
  | nil => exact .refl _
  | cons y l ih =>
      obtain ⟨hy, hne⟩ := h y mem_cons_self
      refine ((ih fun z hz => h z (mem_cons_of_mem y hz)).cons y).trans fun done => ?_
      rw [foldl_cons, foldl_cons, foldl_cons, foldl_cons]
      rcases Nat.lt_or_gt_of_ne hne with hlt | hgt
      · rw [place_swap hy hx hlt]
      · rw [place_swap hx hy hgt]

theorem alike_merge (hl : l.Pairwise fun x y => weight x ≤ weight y)
    (hzero : ∀ x ∈ l ++ r, weight x ≠ 0) :
    Alike weight (l ++ r) (l.merge r fun x y => weight x ≤ weight y) := by
  induction l, r using List.merge.induct (fun x y => weight x ≤ weight y) with
  | case1 r =>
      rw [nil_merge]
      exact .refl _
  | case2 l =>
      rw [merge_right, append_nil]
      exact .refl _
  | case3 x l y r hle ih =>
      rw [cons_merge_cons_pos _ _ _ hle]
      exact (ih (pairwise_cons.mp hl).2 fun z hz => hzero z (mem_cons_of_mem x hz)).cons x
  | case4 x l y r hle ih =>
      have hlt : weight y < weight x := by simpa using hle
      rw [cons_merge_cons_neg _ _ _ hle]
      have hmove : Alike weight ((x :: l) ++ [y]) (y :: x :: l) := by
        refine alike_move (hzero y (mem_append_right _ mem_cons_self)) fun z hz => ?_
        have hxz : weight x ≤ weight z := by
          rcases mem_cons.mp hz with rfl | hz
          · exact le_rfl
          · exact (pairwise_cons.mp hl).1 z hz
        exact ⟨hzero z (mem_append_left _ hz), by omega⟩
      have hcut : (x :: l) ++ y :: r = ((x :: l) ++ [y]) ++ r := by
        rw [append_assoc, singleton_append]
      rw [hcut]
      refine (hmove.append (.refl r)).trans ((ih hl fun z hz => hzero z ?_).cons y)
      rcases mem_append.mp hz with hz | hz
      · exact mem_append_left _ hz
      · exact mem_append_right _ (mem_cons_of_mem y hz)

theorem merge_cons (hl : (x :: l).Pairwise fun x y => weight x ≤ weight y) (r : List α) :
    ∃ pre post, r = pre ++ post ∧ (∀ y ∈ pre, weight y < weight x)
      ∧ (x :: l).merge r (fun x y => weight x ≤ weight y) = pre ++ x :: l.merge post (fun x y => weight x ≤ weight y)
      ∧ l.merge r (fun x y => weight x ≤ weight y) = pre ++ l.merge post fun x y => weight x ≤ weight y := by
  induction r with
  | nil =>
      refine ⟨[], [], rfl, nofun, ?_, rfl⟩
      rw [merge_right, merge_right, nil_append]
  | cons y r ih =>
      by_cases hle : weight x ≤ weight y
      · exact ⟨[], y :: r, rfl, nofun, cons_merge_cons_pos _ _ _ (decide_eq_true hle), rfl⟩
      · obtain ⟨pre, post, rfl, hpre, hmerge, hmerge'⟩ := ih
        have hlt : weight y < weight x := Nat.lt_of_not_le hle
        have hfirst : l.merge (y :: (pre ++ post)) (fun x y => weight x ≤ weight y)
            = y :: l.merge (pre ++ post) fun x y => weight x ≤ weight y := by
          cases l with
          | nil => rw [nil_merge, nil_merge]
          | cons z l =>
              have hxz := (pairwise_cons.mp hl).1 z mem_cons_self
              exact cons_merge_cons_neg _ _ _ (by simp only [decide_eq_true_eq]; omega)
        refine ⟨y :: pre, post, rfl, fun z hz => ?_, ?_, ?_⟩
        · rcases mem_cons.mp hz with rfl | hz
          · exact hlt
          · exact hpre z hz
        · rw [cons_merge_cons_neg _ _ _ (by simp only [decide_eq_true_eq]; omega), hmerge, cons_append]
        · rw [hfirst, hmerge', cons_append]

/-! ## Arranging -/

theorem foldl_place_of_arranged (h : Arranged weight (x :: l)) :
    l.foldl (place weight) (x :: done) = l.reverse ++ x :: done := by
  induction l generalizing x done with
  | nil => rfl
  | cons y l ih =>
      obtain ⟨hxy, hl⟩ := isChain_cons_cons.mp h
      rw [foldl_cons, place_eq_cons fun z hz => by cases hz; exact hxy, ih hl, reverse_cons,
        append_assoc, singleton_append]

theorem Arranged.pairwise {l : List α} (h : Arranged weight l) (hzero : ∀ x ∈ l, weight x ≠ 0) :
    l.Pairwise fun x y => weight x ≤ weight y := by
  have hle : l.IsChain fun x y => weight x ≤ weight y := by
    refine List.IsChain.imp_of_mem_imp (fun x y _ hy hxy => ?_) h
    exact hxy.resolve_left (hzero y hy)
  exact hle.pairwise

theorem arranged_of_pairwise (h : l.Pairwise fun x y => weight x ≤ weight y) : Arranged weight l :=
  (h.imp fun hle => Or.inr hle).isChain

theorem arrange_of_arranged (h : Arranged weight l) : arrange weight l = l := by
  cases l with
  | nil => rfl
  | cons x l =>
      rw [arrange, foldl_cons, place_eq_cons nofun, foldl_place_of_arranged h]
      simp

theorem perm_foldl_place (l done : List α) : (l.foldl (place weight) done).Perm (l ++ done) := by
  induction l generalizing done with
  | nil => exact .refl _
  | cons x l ih =>
      exact (ih _).trans (((perm_place done x).append_left l).trans perm_middle)

theorem perm_arrange (l : List α) : (arrange weight l).Perm l := by
  have h : (l.foldl (place weight) []).Perm (l ++ []) := perm_foldl_place l []
  rw [append_nil] at h
  exact (reverse_perm _).trans h

theorem mem_arrange : x ∈ arrange weight l ↔ x ∈ l := (perm_arrange l).mem_iff

theorem alike_place (done : List α) (x : α) :
    Alike weight (place weight done x).reverse (done.reverse ++ [x]) := by
  induction done with
  | nil =>
      rw [place_eq_cons nofun]
      exact .refl _
  | cons y done ih =>
      by_cases hplace : weight x ≠ 0 ∧ weight x < weight y
      · have hswap : Alike weight [x, y] [y, x] := by
          intro done'
          exact place_swap hplace.1 (Nat.ne_zero_of_lt hplace.2) hplace.2 done'
        rw [place_of_lt hplace.1 hplace.2, reverse_cons, reverse_cons, append_assoc]
        refine (ih.append (.refl [y])).trans ?_
        rw [append_assoc]
        exact (Alike.refl _).append hswap
      · have hstay : place weight (y :: done) x = x :: y :: done := by
          refine place_eq_cons fun z hz => ?_
          cases hz
          by_cases hx : weight x = 0
          · exact .inl hx
          · exact .inr (Nat.le_of_not_lt fun hlt => hplace ⟨hx, hlt⟩)
        rw [hstay, reverse_cons]
        exact .refl _

theorem alike_arrange (l : List α) : Alike weight (arrange weight l) l := by
  induction l using List.reverseRecOn with
  | nil => exact .refl _
  | append_singleton l x ih =>
      rw [arrange, foldl_append]
      exact (alike_place _ x).trans (ih.append (.refl [x]))

theorem chain_place (h : done.IsChain (flip (Before weight))) (x : α) :
    (place weight done x).IsChain (flip (Before weight)) := by
  by_cases hx : weight x = 0
  · rw [place_of_zero hx]
    exact h.cons fun y _ => .inl hx
  · induction done with
    | nil =>
        rw [place_eq_cons nofun]
        exact isChain_singleton x
    | cons y done ih =>
        rcases Nat.lt_or_ge (weight x) (weight y) with hlt | hle
        · rw [place_of_lt hx hlt]
          refine (ih h.tail).cons fun z hz => ?_
          have hhead : z = x ∨ z ∈ done.head? := by
            cases done with
            | nil =>
                rw [place_eq_cons nofun] at hz
                cases hz
                exact .inl rfl
            | cons w done =>
                rw [place, if_neg hx, List.orderedInsert] at hz
                split at hz <;> cases hz
                · exact .inl rfl
                · exact .inr rfl
          rcases hhead with rfl | hz
          · exact .inr hlt.le
          · exact h.rel_head? hz
        · rw [place_eq_cons fun z hz => by cases hz; exact .inr hle]
          exact h.cons fun z hz => by cases hz; exact .inr hle

theorem arranged_arrange (l : List α) : Arranged weight (arrange weight l) := by
  have hfold : ∀ done : List α, done.IsChain (flip (Before weight)) →
      (l.foldl (place weight) done).IsChain (flip (Before weight)) := by
    induction l with
    | nil => exact fun _ h => h
    | cons x l ih => exact fun done h => ih _ (chain_place h x)
  rw [Arranged, arrange, isChain_reverse]
  exact hfold [] isChain_nil

theorem arrange_nil : arrange weight [] = [] := rfl

theorem place_append (h : ∃ x ∈ done, weight x = 0) (rest : List α) (y : α) :
    place weight (done ++ rest) y = place weight done y ++ rest := by
  by_cases hy : weight y = 0
  · rw [place_of_zero hy, place_of_zero hy, cons_append]
  · induction done with
    | nil =>
        obtain ⟨x, hx, -⟩ := h
        cases hx
    | cons z done ih =>
        rcases Nat.lt_or_ge (weight y) (weight z) with hlt | hle
        · have hdone : ∃ x ∈ done, weight x = 0 := by
            obtain ⟨x, hx, hzero⟩ := h
            rcases mem_cons.mp hx with rfl | hx
            · omega
            · exact ⟨x, hx, hzero⟩
          rw [cons_append, place_of_lt hy hlt, place_of_lt hy hlt, ih hdone, cons_append]
        · have hstay : ∀ rest : List α, place weight (z :: rest) y = y :: z :: rest :=
            fun rest => place_eq_cons fun w hw => by cases hw; exact .inr hle
          rw [cons_append, hstay, hstay, cons_append, cons_append]

theorem foldl_place_append (h : ∃ x ∈ done, weight x = 0) (rest : List α) :
    l.foldl (place weight) (done ++ rest) = l.foldl (place weight) done ++ rest := by
  induction l generalizing done with
  | nil => rfl
  | cons y l ih =>
      obtain ⟨x, hx, hzero⟩ := h
      rw [foldl_cons, place_append ⟨x, hx, hzero⟩]
      exact ih ⟨x, (perm_place done y).mem_iff.mpr (mem_cons_of_mem y hx), hzero⟩

theorem arrange_append (hx : weight x = 0) :
    arrange weight (l ++ x :: r) = arrange weight l ++ arrange weight (x :: r) := by
  have hsplit := foldl_place_append (l := r) ⟨x, mem_singleton_self x, hx⟩ (l.foldl (place weight) [])
  rw [arrange, arrange, arrange, foldl_append, foldl_cons, foldl_cons, place_of_zero hx,
    place_of_zero hx, ← reverse_append]
  exact congrArg List.reverse hsplit

theorem place_concat (hx : weight x = 0) (done : List α) (y : α) :
    place weight (done ++ [x]) y = place weight done y ++ [x] := by
  by_cases hy : weight y = 0
  · rw [place_of_zero hy, place_of_zero hy, cons_append]
  · induction done with
    | nil =>
        have hnil : place weight [] y = [y] := place_eq_cons nofun
        rw [hnil]
        exact place_eq_cons fun z hz => by cases hz; exact .inr (by omega)
    | cons z done ih =>
        rcases Nat.lt_or_ge (weight y) (weight z) with hlt | hle
        · rw [cons_append, place_of_lt hy hlt, place_of_lt hy hlt, ih, cons_append]
        · have hstay : ∀ done : List α, place weight (z :: done) y = y :: z :: done :=
            fun done => place_eq_cons fun w hw => by cases hw; exact .inr hle
          rw [cons_append, hstay, hstay, cons_append, cons_append]

theorem arrange_cons (hx : weight x = 0) (l : List α) : arrange weight (x :: l) = x :: arrange weight l := by
  have hfold : ∀ done : List α,
      l.foldl (place weight) (done ++ [x]) = l.foldl (place weight) done ++ [x] := by
    induction l with
    | nil => exact fun _ => rfl
    | cons y l ih =>
        intro done
        rw [foldl_cons, place_concat hx done y, ih, foldl_cons]
  have hfirst := hfold []
  rw [nil_append] at hfirst
  rw [arrange, foldl_cons, place_of_zero hx, hfirst, reverse_concat, arrange]

/-! ## Stability -/

/-- The order that the runs are sorted by. -/
def lighter (weight : α → Nat) (x y : α) : Bool := weight x < weight y

theorem lighter_eq_false : lighter weight x y = false ↔ weight y ≤ weight x := by
  rw [lighter, decide_eq_false_iff_not, Nat.not_lt]

theorem tie_lighter : tie (lighter weight) x y = true ↔ weight x = weight y := by
  rw [tie_iff, lighter_eq_false, lighter_eq_false]
  omega

theorem filter_place (done : List α) (x a : α) :
    (place weight done x).filter (tie (lighter weight) a) = (x :: done).filter (tie (lighter weight) a) := by
  by_cases hx : weight x = 0
  · rw [place_of_zero hx]
  · induction done with
    | nil => rw [place_eq_cons nofun]
    | cons z done ih =>
        rcases Nat.lt_or_ge (weight x) (weight z) with hlt | hle
        · rw [place_of_lt hx hlt, filter_cons, ih, filter_cons, filter_cons (x := x),
            filter_cons]
          by_cases hxa : weight a = weight x
          · have hza : ¬ tie (lighter weight) a z = true := by
              rw [tie_lighter]
              omega
            rw [if_neg hza, if_neg hza]
          · have hxa' : ¬ tie (lighter weight) a x = true := by
              rw [tie_lighter]
              exact hxa
            rw [if_neg hxa', if_neg hxa']
        · rw [place_eq_cons fun w hw => by cases hw; exact .inr hle]

theorem filter_arrange (l : List α) (a : α) :
    (arrange weight l).filter (tie (lighter weight) a) = l.filter (tie (lighter weight) a) := by
  have hfold : ∀ done : List α, (l.foldl (place weight) done).filter (tie (lighter weight) a)
      = (l.reverse ++ done).filter (tie (lighter weight) a) := by
    induction l with
    | nil => exact fun _ => rfl
    | cons x l ih =>
        intro done
        rw [foldl_cons, ih, filter_append, filter_place, ← filter_append, reverse_cons,
          append_assoc, singleton_append]
  rw [arrange, filter_reverse, hfold, append_nil, ← filter_reverse, reverse_reverse]

/-- **A run is sorted.** -/
theorem stablySorts_arrange (h : ∀ x ∈ l, weight x ≠ 0) :
    StablySorts (lighter weight) l (arrange weight l) where
  perm := perm_arrange l
  inOrder := ((arranged_arrange l).pairwise fun x hx => h x (mem_arrange.mp hx)).imp lighter_eq_false.mpr
  ties := filter_arrange l

/-- **What arranging does to a run** that begins after an element of weight zero, or at the start, and ends
before another one, or at the end. -/
theorem arrange_run {m : List α} (hl : ∀ x ∈ l.getLast?, weight x = 0) (hr : ∀ x ∈ r.head?, weight x = 0) :
    arrange weight (l ++ (m ++ r)) = arrange weight l ++ (arrange weight m ++ arrange weight r) := by
  have hright : arrange weight (m ++ r) = arrange weight m ++ arrange weight r := by
    cases r with
    | nil => rw [append_nil, arrange_nil, append_nil]
    | cons y r => exact arrange_append (hr y rfl)
  rw [← hright]
  cases l using List.reverseRecOn with
  | nil => rfl
  | append_singleton l x =>
      have hx := hl x List.getLast?_concat
      have hlast : arrange weight (l ++ [x]) = arrange weight l ++ [x] := by
        rw [arrange_append hx, arrange_cons hx, arrange_nil]
      rw [append_assoc, singleton_append, arrange_append hx, arrange_cons hx, hlast, append_assoc,
        singleton_append]

end MitScheme.Arranging
