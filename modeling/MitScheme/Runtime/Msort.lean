import Mathlib.Data.List.GetD
import MitScheme.Lib.Sorting

/-!
# Vectors

`vector-ref` and `vector-set!`, which fail where the index is not one of the vector. An index is a fixnum,
and no vector is so long that the arithmetic on its indices leaves the fixnums.
-/

namespace MitScheme

open Option (bind_eq_bind bind_some)

variable {α : Type}

def vectorRef (vector : List α) (index : Int) : Option α :=
  if 0 ≤ index then vector[index.toNat]? else none

def vectorSet (vector : List α) (index : Int) (element : α) : Option (List α) :=
  if 0 ≤ index ∧ index < vector.length then some (vector.set index.toNat element) else none

theorem vectorRef_append (l r : List α) (a : α) : vectorRef (l ++ a :: r) l.length = some a := by
  rw [vectorRef, Int.toNat_natCast, List.getElem?_append_right (Nat.le_refl _),
    Nat.sub_self]
  rfl

theorem vectorSet_append (l r : List α) (a b : α) :
    vectorSet (l ++ a :: r) l.length b = some (l ++ b :: r) := by
  have hlt : ((l.length : Nat) : Int) < (l ++ a :: r).length := by
    rw [List.length_append, List.length_cons]
    omega
  rw [vectorSet, if_pos ⟨Int.natCast_nonneg _, hlt⟩, Int.toNat_natCast, List.set_append_right _ _ (Nat.le_refl _),
    Nat.sub_self]
  rfl

theorem vectorRef_of_eq {v l r : List α} {a : α} {i : Int} (hv : v = l ++ a :: r) (hi : i = l.length) :
    vectorRef v i = some a := by
  rw [hv, hi, vectorRef_append]

theorem vectorSet_of_eq {v l r : List α} {a : α} {i : Int} (hv : v = l ++ a :: r) (hi : i = l.length) (b : α) :
    vectorSet v i b = some (l ++ b :: r) := by
  rw [hv, hi, vectorSet_append]

/-!
## Merge sort

`merge-sort!` works on two vectors at once: the halves of one are sorted into the other, and merged back from
there. `sort` is `merge-sort`.
-/

open Sorting

/-- What `merge-sort` and `quick-sort` take. -/
inductive Sequence (α : Type) where
  | vector (elements : List α)
  | list (elements : List α)
deriving DecidableEq

def Sequence.elements : Sequence α → List α
  | .vector elements => elements
  | .list elements => elements

/-- The same kind of sequence of other elements. -/
def Sequence.withElements : Sequence α → List α → Sequence α
  | .vector _, elements => .vector elements
  | .list _, elements => .list elements

variable (pred : α → α → Bool)

/-- The loop `merge` of `merge-sort!`. -/
def mergeLoop (temp : List α) (middle high : Nat) (v : List α) (p p1 p2 : Nat) : Option (List α) :=
  if p < high then do
    let left ← (if p1 < middle then
        if p2 = high then some true
        else do
          let x2 ← vectorRef temp p2
          let x1 ← vectorRef temp p1
          some (!pred x2 x1)
      else some false)
    if left then do
      let x1 ← vectorRef temp p1
      let v ← vectorSet v p x1
      mergeLoop temp middle high v (p + 1) (p1 + 1) p2
    else do
      let x2 ← vectorRef temp p2
      let v ← vectorSet v p x2
      mergeLoop temp middle high v (p + 1) p1 (p2 + 1)
  else some v
termination_by high - p

/-- The loop `sort-subvector` of `merge-sort!`, with both vectors as it leaves them. -/
def sortSubvector (v temp : List α) (low high : Nat) : Option (List α × List α) :=
  if 1 < high - low then do
    let middle := (low + high) / 2
    let (temp, v) ← sortSubvector temp v low middle
    let (temp, v) ← sortSubvector temp v middle high
    let v ← mergeLoop pred temp middle high v low low middle
    some (v, temp)
  else some (v, temp)
termination_by high - low

/-- `merge-sort!` -/
def mergeSortInPlace (v : Sequence α) : Option (Sequence α) :=
  match v with
  | .vector v => do
      let (v, _) ← sortSubvector pred v v 0 v.length
      some (.vector v)
  | .list _ => none

def mergeSort (obj : Sequence α) : Option (Sequence α) :=
  match obj with
  | .vector v => mergeSortInPlace pred (.vector v)
  | .list l => do
      let v ← mergeSortInPlace pred (.vector l)
      some (.list v.elements)

variable {pred}

/-! ## Merging -/

/-- **The loop `merge`** writes the merge of what is left of the two halves of `temp` over as many elements of
`v`. -/
theorem mergeLoop_eq (old : List α) :
    ∀ {v temp A B C D E s1 s2 : List α} {middle high p p1 p2 : Nat},
      v = A ++ (old ++ B) → temp = C ++ (s1 ++ (D ++ (s2 ++ E))) → old.length = s1.length + s2.length →
      p = A.length → p1 = C.length → middle = p1 + s1.length → p2 = middle + D.length →
      high = p2 + s2.length → high = p + old.length →
      mergeLoop pred temp middle high v p p1 p2 = some (A ++ (s1.merge s2 (notAfter pred) ++ B)) := by
  induction old with
  | nil =>
      intro v temp A B C D E s1 s2 middle high p p1 p2 hv htemp hlen hp hp1 hmiddle hp2 hhigh hend
      obtain ⟨h1, h2⟩ := Nat.add_eq_zero_iff.mp hlen.symm
      rw [mergeLoop, if_neg (by omega), hv, List.length_eq_zero_iff.mp h1, List.length_eq_zero_iff.mp h2,
        List.nil_merge]
  | cons x old ih =>
      intro v temp A B C D E s1 s2 middle high p p1 p2 hv htemp hlen hp hp1 hmiddle hp2 hhigh hend
      rw [List.length_cons] at hlen hend
      have hset : ∀ a, vectorSet v p a = some (A ++ a :: (old ++ B)) := by
        intro a
        rw [hv, hp]
        exact vectorSet_append A (old ++ B) x a
      -- the next element of the left half
      have hleft : ∀ y s, s1 = y :: s → vectorRef temp p1 = some y
          ∧ mergeLoop pred temp middle high (A ++ y :: (old ++ B)) (p + 1) (p1 + 1) p2
            = some (A ++ (y :: s.merge s2 (notAfter pred) ++ B)) := by
        intro y s hs
        rw [hs, List.length_cons] at hlen hmiddle
        have hread : vectorRef temp p1 = some y := by
          rw [htemp, hs, hp1]
          exact vectorRef_append C _ y
        refine ⟨hread, ?_⟩
        have hrest := @ih (A ++ y :: (old ++ B)) temp (A ++ [y]) B (C ++ [y]) D E s s2 middle high (p + 1)
          (p1 + 1) p2 (by simp) (by rw [htemp, hs]; simp) (by omega) (by simp [hp]) (by simp [hp1]) (by omega)
          hp2 hhigh (by omega)
        rw [hrest]
        simp
      have hright : ∀ y s, s2 = y :: s → vectorRef temp p2 = some y
          ∧ mergeLoop pred temp middle high (A ++ y :: (old ++ B)) (p + 1) p1 (p2 + 1)
            = some (A ++ (y :: s1.merge s (notAfter pred) ++ B)) := by
        intro y s hs
        rw [hs, List.length_cons] at hlen hhigh
        have hread : vectorRef temp p2 = some y := by
          refine vectorRef_of_eq (l := C ++ (s1 ++ D)) (r := s ++ E) (by rw [htemp, hs]; simp) ?_
          rw [List.length_append, List.length_append]
          omega
        refine ⟨hread, ?_⟩
        have hrest := @ih (A ++ y :: (old ++ B)) temp (A ++ [y]) B C (D ++ [y]) E s1 s middle high (p + 1)
          p1 (p2 + 1) (by simp) (by rw [htemp, hs]; simp) (by omega) (by simp [hp]) hp1 hmiddle
          (by simp; omega) (by omega) (by omega)
        rw [hrest]
        simp
      rw [mergeLoop, if_pos (by omega)]
      cases hs1 : s1 with
      | nil =>
          cases hs2 : s2 with
          | nil =>
              rw [hs1, hs2] at hlen
              exact absurd hlen (Nat.succ_ne_zero _)
          | cons y s =>
              obtain ⟨hread, hrest⟩ := hright y s hs2
              rw [hs1, List.length_nil] at hmiddle
              rw [hs1, List.nil_merge] at hrest
              rw [if_neg (by omega), hread]
              simp only [bind_eq_bind, bind_some, Bool.false_eq_true, if_false]
              rw [hset, bind_some, hrest, List.nil_merge]
      | cons x1 s1' =>
          obtain ⟨hread1, hrest1⟩ := hleft x1 s1' hs1
          rw [hs1, List.length_cons] at hmiddle
          rw [if_pos (by omega)]
          cases hs2 : s2 with
          | nil =>
              rw [hs2, List.length_nil] at hhigh
              rw [hs2, List.merge_right] at hrest1
              rw [if_pos (by omega), hread1]
              simp only [bind_eq_bind, bind_some, if_true]
              rw [hset, bind_some, hrest1, List.merge_right]
          | cons x2 s2' =>
              obtain ⟨hread2, hrest2⟩ := hright x2 s2' hs2
              rw [hs2, List.length_cons] at hhigh
              rw [if_neg (by omega), hread1, hread2]
              simp only [bind_eq_bind, bind_some]
              cases hpred : pred x2 x1 with
              | true =>
                  rw [Bool.not_true, if_neg Bool.false_ne_true, hset, bind_some, hrest2, hs1,
                    cons_merge_of_lt hpred]
              | false =>
                  rw [Bool.not_false, if_pos rfl, hset, bind_some, hrest1, hs2,
                    cons_merge_of_not_lt hpred]

/-! ## Sorting -/

/-- **The loop `sort-subvector`**, where the part to sort is the same in both vectors. What it leaves of it in
`temp` is of no use. -/
theorem sortSubvector_eq (hlt : IsStrictWeakOrder α fun a b => pred a b = true) (n : Nat) :
    ∀ {v temp A B A' B' part : List α} {low high : Nat}, part.length = n →
      v = A ++ (part ++ B) → temp = A' ++ (part ++ B') → low = A.length → low = A'.length → high = low + n →
      ∃ sorted left, sortSubvector pred v temp low high = some (A ++ (sorted ++ B), A' ++ (left ++ B'))
        ∧ StablySorts pred part sorted ∧ left.length = n := by
  induction n using Nat.strongRecOn with
  | ind n ih =>
      intro v temp A B A' B' part low high hlen hv htemp hlow hlow' hhigh
      rw [sortSubvector]
      by_cases hn : 1 < n
      · rw [if_pos (by omega)]
        have hcut : part = part.take (n / 2) ++ part.drop (n / 2) := (List.take_append_drop _ _).symm
        have hlen1 : (part.take (n / 2)).length = n / 2 := List.length_take_of_le (by omega)
        have hlen2 : (part.drop (n / 2)).length = n - n / 2 := by rw [List.length_drop, hlen]
        generalize part.take (n / 2) = part1 at hcut hlen1
        generalize part.drop (n / 2) = part2 at hcut hlen2
        have hmiddle : (low + high) / 2 = low + n / 2 := by omega
        dsimp only
        rw [hmiddle]
        obtain ⟨s1, left1, hsort1, hsorts1, hleft1⟩ := @ih (n / 2) (by omega) temp v A' (part2 ++ B') A
          (part2 ++ B) part1 low (low + n / 2) hlen1 (by rw [htemp, hcut]; simp) (by rw [hv, hcut]; simp) hlow' hlow
          rfl
        have hs1 := length_eq hsorts1.toSorts
        obtain ⟨s2, left2, hsort2, hsorts2, hleft2⟩ := @ih (n - n / 2) (by omega) (A' ++ (s1 ++ (part2 ++ B')))
          (A ++ (left1 ++ (part2 ++ B))) (A' ++ s1) B' (A ++ left1) B part2 (low + n / 2) high hlen2 (by simp)
          (by simp) (by rw [List.length_append]; omega) (by rw [List.length_append]; omega) (by omega)
        have hs2 := length_eq hsorts2.toSorts
        have hmerge := @mergeLoop_eq α pred (left1 ++ left2) (A ++ left1 ++ (left2 ++ B))
          (A' ++ s1 ++ (s2 ++ B')) A B A' [] B' s1 s2 (low + n / 2) high low low (low + n / 2) (by simp) (by simp)
          (by rw [List.length_append]; omega) hlow hlow' (by omega) (by simp) (by omega)
          (by rw [List.length_append]; omega)
        refine ⟨s1.merge s2 (notAfter pred), s1 ++ s2, ?_, ?_, ?_⟩
        · rw [hsort1, bind_eq_bind, bind_some]
          rw [hsort2, bind_some]
          rw [hmerge, bind_eq_bind]
          simp
        · rw [hcut]
          exact hsorts1.merge hlt hsorts2
        · rw [List.length_append]
          omega
      · rw [if_neg (by omega)]
        refine ⟨part, part, by rw [hv, htemp], StablySorts.refl ?_, hlen⟩
        match part, hlen with
        | [], _ => exact InOrder.nil
        | [a], _ => exact InOrder.singleton a
        | a :: b :: l, hlen =>
            simp only [List.length_cons] at hlen
            omega

theorem mergeSortInPlace_eq (hlt : IsStrictWeakOrder α fun a b => pred a b = true) (v : List α) :
    ∃ sorted, mergeSortInPlace pred (.vector v) = some (.vector sorted) ∧ StablySorts pred v sorted := by
  obtain ⟨sorted, left, hsort, hsorts, -⟩ := @sortSubvector_eq α pred hlt v.length v v [] [] [] [] v 0 v.length rfl
    (by simp) (by simp) rfl rfl (Nat.zero_add _).symm
  refine ⟨sorted, ?_, hsorts⟩
  rw [mergeSortInPlace, hsort, bind_eq_bind, bind_some, List.nil_append, List.append_nil]

/-- **Merge sort** sorts a vector or a list, and ties stay in order. -/
theorem mergeSort_eq (hlt : IsStrictWeakOrder α fun a b => pred a b = true) (obj : Sequence α) :
    ∃ sorted, mergeSort pred obj = some (obj.withElements sorted) ∧ StablySorts pred obj.elements sorted := by
  obtain ⟨sorted, hsort, hsorts⟩ := mergeSortInPlace_eq hlt obj.elements
  refine ⟨sorted, ?_, hsorts⟩
  cases obj with
  | vector v => exact hsort
  | list l =>
      rw [mergeSort, show l = (Sequence.list l).elements from rfl, hsort]
      rfl

end MitScheme
