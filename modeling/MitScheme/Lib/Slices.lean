import Mathlib.Data.List.Basic

/-!
# Parts of lists

The part of a list between two indices, and the list with a part of it replaced.
-/

namespace MitScheme

open List

variable {α β : Type}

/-- The elements of a list from one index up to another. -/
def slice (l : List α) (start stop : Nat) : List α := (l.drop start).take (stop - start)

/-- The list with the elements from an index on replaced by others. -/
def splice (l : List α) (index : Nat) (part : List α) : List α :=
  l.take index ++ part ++ l.drop (index + part.length)

@[simp] theorem slice_self (l : List α) (i : Nat) : slice l i i = [] := by
  simp [slice]

theorem slice_all (l : List α) : slice l 0 l.length = l := by
  simp [slice]

variable {l part : List α} {i j k index : Nat}

theorem length_slice {start stop : Nat} (h : stop ≤ l.length) :
    (slice l start stop).length = stop - start := by
  rw [slice, length_take, length_drop]
  omega

theorem slice_append (l : List α) (hij : i ≤ j) (hjk : j ≤ k) :
    slice l i j ++ slice l j k = slice l i k := by
  unfold slice
  have hk : k - i = (j - i) + (k - j) := by omega
  have hdrop : l.drop j = (l.drop i).drop (j - i) := by
    rw [drop_drop]
    congr
    omega
  rw [hk, hdrop, ← take_add]

theorem getElem?_slice (h : i + k < j) : (slice l i j)[k]? = l[i + k]? := by
  rw [slice, List.getElem?_take_of_lt (by omega), List.getElem?_drop]

theorem slice_slice (l : List α) {a b : Nat} (h : i + b ≤ j) :
    slice (slice l i j) a b = slice l (i + a) (i + b) := by
  rw [slice, slice, drop_take, drop_drop, take_take]
  congr 1
  omega

theorem slice_cons {a : α} (h : l[i]? = some a) (hij : i < j) :
    slice l i j = a :: slice l (i + 1) j := by
  obtain ⟨hi, ha⟩ := List.getElem?_eq_some_iff.mp h
  have hsub : j - i = (j - (i + 1)) + 1 := by omega
  rw [slice, slice, hsub, drop_eq_getElem_cons hi, take_succ_cons, ha]

theorem prefix_slice_iff (hk : k ≤ l.length) (hik : i ≤ k) :
    part <+: slice l i k ↔ i + part.length ≤ k ∧ slice l i (i + part.length) = part := by
  refine ⟨fun h => ?_, fun h => ?_⟩
  · have hlength := h.length_le
    rw [length_slice hk] at hlength
    have hle : i + part.length ≤ k := by omega
    refine ⟨hle, ?_⟩
    rw [prefix_iff_eq_take] at h
    rw [← slice_append l (Nat.le_add_right i part.length) hle, take_append_of_le_length,
      take_of_length_le] at h
    · exact h.symm
    · rw [length_slice (by omega)]
      omega
    · rw [length_slice (by omega)]
      omega
  · obtain ⟨hle, hpart⟩ := h
    rw [← slice_append l (Nat.le_add_right i part.length) hle, hpart]
    exact prefix_append _ _

@[simp] theorem splice_nil (l : List α) (index : Nat) : splice l index [] = l := by
  simp [splice]

theorem length_splice (h : index + part.length ≤ l.length) :
    (splice l index part).length = l.length := by
  simp only [splice, length_append, length_take, length_drop]
  omega

theorem splice_all (h : part.length = l.length) : splice l 0 part = part := by
  simp [splice, h]

theorem splice_append {part' : List α} (h : index + part.length ≤ l.length) :
    splice (splice l index part) (index + part.length) part' = splice l index (part ++ part') := by
  have htake : (l.take index ++ part).length = index + part.length := by
    rw [length_append, length_take]
    omega
  unfold splice
  rw [take_append_of_le_length (Nat.le_of_eq htake.symm), take_of_length_le
    (Nat.le_of_eq htake), drop_append, drop_of_length_le (by omega), htake,
    nil_append, drop_drop, length_append]
  simp only [append_assoc]
  congr 3
  congr 1
  omega

theorem set_eq_splice (h : index < l.length) (a : α) : l.set index a = splice l index [a] := by
  rw [set_eq_take_append_cons_drop, if_pos h, splice]
  simp

end MitScheme
