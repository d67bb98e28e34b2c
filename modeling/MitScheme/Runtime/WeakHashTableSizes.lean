import MitScheme.Runtime.WeakHashTable
import MitScheme.Runtime.HashTableResize
import Mathlib.Tactic.Linarith
import Mathlib.Tactic.FieldSimp
import Mathlib.Algebra.Order.Field.Basic

/-!
# Sizes of hash tables

A table that is grown once for one entry too many is not small enough to be shrunk again. A table that shrinks gets a
size that its entries fit in.
-/

namespace MitScheme.WeakHashTable

open HashTable (RehashSize minimumSize defaultRehashSize roundHalf incrementSize decrementSize computeShrinkSize
  growLoop shrinkLoop primesLoop size_lt_incrementSize decrementSize_lt)

/-- The rehash sizes that are accepted: an exact integer, or another real number above one, with products and
quotients that are rounded to the nearest integer. -/
def Accepted : RehashSize → Prop
  | .integer _ _ => True
  | .real times dividedBy => ∃ r : ℚ, 1 < r ∧ ∀ n : Int, |(times n : ℚ) - n * r| ≤ 1 / 2 ∧
      |(dividedBy n : ℚ) - n / r| ≤ 1 / 2

variable {r : RehashSize} {count size size' : Int} {fuel : Nat}

theorem decrementSize_incrementSize (h : Accepted r) (size : Int) :
    decrementSize r (incrementSize r size) ≤ size := by
  cases r with
  | integer n hn =>
      rw [incrementSize, decrementSize]
      omega
  | real times dividedBy =>
      rw [incrementSize]
      split
      · obtain ⟨q, hq, hround⟩ := h
        have htimes := abs_le.mp (hround size).1
        have hdivided := abs_le.mp (hround (times size)).2
        have hquotient : (times size : ℚ) / q < size + 1 / 2 := by
          rw [div_lt_iff₀ (by linarith)]
          nlinarith
        have hlt : (dividedBy (times size) : ℚ) < size + 1 := by linarith
        have hle : dividedBy (times size) < size + 1 := by exact_mod_cast hlt
        rw [decrementSize]
        split <;> omega
      · have := decrementSize_lt (.real times dividedBy) (size + 1)
        omega

theorem accepted_defaultRehashSize : Accepted defaultRehashSize := by
  refine ⟨2, by norm_num, fun n => ⟨?_, ?_⟩⟩
  · push_cast
    rw [mul_comm, sub_self, abs_zero]
    norm_num
  · have hhalf : 2 * roundHalf n ≤ n + 1 ∧ n - 1 ≤ 2 * roundHalf n := by
      unfold roundHalf
      split <;> omega
    have hup : (2 * roundHalf n : ℚ) ≤ n + 1 := by exact_mod_cast hhalf.1
    have hdown : (n - 1 : ℚ) ≤ 2 * roundHalf n := by exact_mod_cast hhalf.2
    rw [abs_le]
    constructor <;> linarith

theorem growLoop_once (hlt : size < count) (hle : count ≤ size + 1) (h : growLoop r count fuel size = some size') :
    size' = incrementSize r size := by
  have hnext := size_lt_incrementSize r size
  cases fuel with
  | zero => cases h
  | succ fuel =>
      rw [growLoop, if_pos hlt] at h
      cases fuel with
      | zero => cases h
      | succ fuel =>
          rw [growLoop, if_neg (by omega)] at h
          exact (Option.some.inj h).symm

theorem shrinkLoop_ge (hnonneg : 0 ≤ count) (hcount : count ≤ size) (h : shrinkLoop r count fuel size = some size') :
    count ≤ size' := by
  induction fuel generalizing size with
  | zero => cases h
  | succ fuel ih =>
      rw [shrinkLoop] at h
      split at h
      · cases h
        omega
      · next hsize =>
          rw [computeShrinkSize, if_neg hsize] at h
          split at h
          · next hlt =>
              have := decrementSize_lt r (decrementSize r size)
              exact ih (by omega) h
          · cases h
            exact hcount

theorem primesLoop_ge {primes n : Nat} (h : primesLoop size fuel primes = some n) : size ≤ n := by
  induction fuel generalizing primes with
  | zero => cases h
  | succ fuel ih =>
      rw [primesLoop] at h
      split at h
      · cases h
        assumption
      · exact ih h

/-- A table has room for its entries. -/
structure Fits (t : Table) : Prop where
  count : t.count ≤ t.growSize
  room : t.rehashThreshold t.growSize ≤ t.buckets.length

/-- The sizes of a table are as they should be between operations. -/
structure Sized (t : Table) : Prop extends Fits t where
  shrink : t.initialSizeInEffect = false → t.shrinkSize ≤ t.count

/-- A table with another size, and some of the entries. -/
structure Regrown (t : Table) (size : Int) (t' : Table) : Prop where
  table : t' = { t with
    growSize := size, shrinkSize := computeShrinkSize t.rehashSize size, primes := t'.primes, buckets := t'.buckets,
    count := t'.count }
  room : t.rehashThreshold size ≤ t'.buckets.length
  count : t'.count ≤ t.count

/-- What `maybe-shrink-table!` makes of a table. Nothing is done while the initial size is in effect. -/
structure Shrunk (t t' : Table) : Prop where
  rehashSize : t'.rehashSize = t.rehashSize
  initial : t'.initialSizeInEffect = t.initialSizeInEffect
  same : t.initialSizeInEffect = true → t' = t
  sized : Fits t → Sized t'

/-- What becomes of a table while a key is looked for. -/
structure Resized (t t' : Table) : Prop where
  rehashSize : t'.rehashSize = t.rehashSize
  initial : t'.initialSizeInEffect = t.initialSizeInEffect
  growSize : t.initialSizeInEffect = true → t'.growSize = t.growSize
  sized : Sized t → Sized t'

variable {t t' t'' : Table}

theorem Regrown.fits (h : Regrown t size t') (hcount : t.count ≤ size) : Fits t' := by
  have hroom := h.room
  have hle := h.count.trans hcount
  refine ⟨?_, ?_⟩ <;> rw [h.table]
  · exact hle
  · exact hroom

theorem Regrown.initial (h : Regrown t size t') : t'.initialSizeInEffect = t.initialSizeInEffect := by rw [h.table]

theorem Regrown.rehashSize (h : Regrown t size t') : t'.rehashSize = t.rehashSize := by rw [h.table]

theorem Resized.refl (t : Table) : Resized t t := ⟨rfl, rfl, fun _ => rfl, id⟩

theorem Resized.trans (h : Resized t t') (h' : Resized t' t'') : Resized t t'' := by
  refine ⟨h'.rehashSize.trans h.rehashSize, h'.initial.trans h.initial, fun hinitial => ?_, fun hsized => ?_⟩
  · exact (h'.growSize (h.initial.trans hinitial)).trans (h.growSize hinitial)
  · exact h'.sized (h.sized hsized)

end MitScheme.WeakHashTable
