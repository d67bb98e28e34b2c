import Mathlib.Data.Nat.Digits.Lemmas
import Mathlib.Data.Nat.Factorization.Basic
import MitScheme.Lib.TwosComplement

/-!
# Counting bits in parallel

The usual way to count the one bits of a word: a word is a row of fields that each hold the count of
their own bits, and a few operations on the whole word add up neighbouring fields. One step doubles
the width of a field. When the fields are wide enough for the count of the whole word, what is left
is to fold the upper half of the word into the lower, again and again.
-/

namespace BitCounts

open TwosComplement
open Nat (lt_size mod_lt two_pow_pos)

/-- The number of one bits. -/
def onesCount (n : Nat) : Nat := (Nat.digits 2 n).sum

@[simp] theorem onesCount_zero : onesCount 0 = 0 := by simp [onesCount]

theorem onesCount_step (n : Nat) : onesCount n = n % 2 + onesCount (n / 2) := by
  rcases Nat.eq_zero_or_pos n with rfl | h
  · simp
  · unfold onesCount
    rw [Nat.digits_def' (by decide) h, List.sum_cons]

variable {a n g x m b : Nat} {c : Nat → Nat}

theorem onesCount_fields (k : Nat) (ha : a < 2 ^ k) (x : Nat) :
    onesCount (a + 2 ^ k * x) = onesCount a + onesCount x := by
  induction k generalizing a with
  | zero =>
      have ha : a = 0 := by simpa using ha
      rw [ha, Nat.pow_zero, Nat.one_mul, Nat.zero_add, onesCount_zero, Nat.zero_add]
  | succ k ih =>
      have hdiv : (a + 2 ^ (k + 1) * x) / 2 = a / 2 + 2 ^ k * x := by
        rw [Nat.pow_succ, Nat.mul_comm (2 ^ k) 2, Nat.mul_assoc]
        omega
      have hmod : (a + 2 ^ (k + 1) * x) % 2 = a % 2 := by
        rw [Nat.pow_succ, Nat.mul_comm (2 ^ k) 2, Nat.mul_assoc]
        omega
      rw [onesCount_step (a + 2 ^ (k + 1) * x), onesCount_step a, hdiv, hmod, ih (by omega),
        Nat.add_assoc]

theorem onesCount_le {k : Nat} (h : n < 2 ^ k) : onesCount n ≤ k := by
  induction k generalizing n with
  | zero =>
      have h : n = 0 := by simpa using h
      simp [h]
  | succ k ih =>
      rw [onesCount_step]
      have := ih (show n / 2 < 2 ^ k by omega)
      omega

theorem onesCount_two_pow_sub_one (k : Nat) : onesCount (2 ^ k - 1) = k := by
  induction k with
  | zero => simp
  | succ k ih =>
      have hpos := two_pow_pos k
      rw [onesCount_step, Nat.pow_succ, show (2 ^ k * 2 - 1) / 2 = 2 ^ k - 1 by omega]
      omega

/-! ## Fields that hold their own counts -/

/-- `m` fields of width `g`, each holding the number of one bits of that field of `x`. -/
def counts (g : Nat) : Nat → Nat → Nat
  | 0, _ => 0
  | m + 1, x => onesCount (x % 2 ^ g) + 2 ^ g * counts g m (x / 2 ^ g)

/-- The lower field of each of `m` pairs. -/
def pairMask (g : Nat) : Nat → Nat
  | 0 => 0
  | m + 1 => (2 ^ g - 1) + 2 ^ (2 * g) * pairMask g m

theorem pairMask_mul (g m : Nat) : (1 + 2 ^ g) * pairMask g m + 1 = 2 ^ (2 * g * m) := by
  induction m with
  | zero => simp [pairMask]
  | succ m ih =>
      obtain ⟨b, hb⟩ : ∃ b, 2 ^ g = b + 1 := ⟨2 ^ g - 1, by have := two_pow_pos g; omega⟩
      have hsq : 2 ^ (2 * g) = (b + 1) * (b + 1) := by rw [Nat.two_mul, Nat.pow_add, hb]
      rw [pairMask, Nat.mul_succ, Nat.pow_add, ← ih, hsq, hb]
      simp only [Nat.add_sub_cancel]
      ring

theorem pairMask_eq (g m : Nat) : (2 ^ (2 * g * m) - 1) / (1 + 2 ^ g) = pairMask g m := by
  rw [← pairMask_mul g m]
  exact Nat.mul_div_cancel_left _ (Nat.lt_of_lt_of_le Nat.one_pos (Nat.le_add_right _ _))

theorem field_lt : onesCount (x % 2 ^ g) < 2 ^ g :=
  Nat.lt_of_le_of_lt (onesCount_le (mod_lt _ (two_pow_pos g))) Nat.lt_two_pow_self

theorem counts_lt (g m x : Nat) : counts g m x < 2 ^ (g * m) := by
  induction m generalizing x with
  | zero => simp [counts]
  | succ m ih =>
      have h := ih (x / 2 ^ g)
      have hfield := field_lt (g := g) (x := x)
      have hle : 2 ^ g * (counts g m (x / 2 ^ g) + 1) ≤ 2 ^ g * 2 ^ (g * m) := Nat.mul_le_mul_left _ h
      rw [counts, Nat.mul_succ, Nat.pow_add, Nat.mul_comm (2 ^ (g * m))]
      rw [Nat.mul_succ] at hle
      omega

theorem counts_one (h : x < 2 ^ m) : counts 1 m x = x := by
  induction m generalizing x with
  | zero =>
      have h : x = 0 := by simpa using h
      rw [h, counts]
  | succ m ih =>
      have hbit : onesCount (x % 2) = x % 2 := by
        rcases Nat.mod_two_eq_zero_or_one x with h | h <;> rw [h] <;> decide
      rw [counts, Nat.pow_one, ih (by omega)]
      omega

theorem counts_pair (g m x : Nat) :
    counts g (2 * (m + 1)) x
      = onesCount (x % 2 ^ g) + 2 ^ g * onesCount (x / 2 ^ g % 2 ^ g)
        + 2 ^ (2 * g) * counts g (2 * m) (x / 2 ^ (2 * g)) := by
  rw [show 2 * (m + 1) = 2 * m + 1 + 1 by omega, counts, counts, Nat.div_div_eq_div_mul,
    Nat.mul_add, ← Nat.mul_assoc, ← Nat.pow_add, ← Nat.two_mul,
    Nat.add_assoc]

theorem onesCount_pair (g x : Nat) :
    onesCount (x % 2 ^ (2 * g)) = onesCount (x % 2 ^ g) + onesCount (x / 2 ^ g % 2 ^ g) := by
  have h : x % 2 ^ (2 * g) = x % 2 ^ g + 2 ^ g * (x / 2 ^ g % 2 ^ g) := by
    rw [Nat.two_mul, Nat.pow_add, Nat.mod_mul]
  rw [h, onesCount_fields g (mod_lt _ (two_pow_pos g))]

theorem and_fields (k : Nat) (ha : a < 2 ^ k) (hb : b < 2 ^ k) (x y : Nat) :
    (a + 2 ^ k * x) &&& (b + 2 ^ k * y) = (a &&& b) + 2 ^ k * (x &&& y) :=
  bitwise_fields (f := and) rfl ha hb x y

theorem pair_lt (ha : a < 2 ^ g) (hb : b < 2 ^ g) : a + 2 ^ g * b < 2 ^ (2 * g) := by
  rw [Nat.two_mul, Nat.pow_add]
  have : 2 ^ g * (b + 1) ≤ 2 ^ g * 2 ^ g := Nat.mul_le_mul_left _ hb
  rw [Nat.mul_succ] at this
  omega

theorem ones_lt (g : Nat) : 2 ^ g - 1 < 2 ^ (2 * g) := by
  have := pair_lt (g := g) (a := 2 ^ g - 1) (b := 0)
    (by have := two_pow_pos g; omega) (two_pow_pos g)
  omega

theorem pair_and_ones (ha : a < 2 ^ g) : (a + 2 ^ g * b) &&& (2 ^ g - 1) = a := by
  rw [Nat.and_two_pow_sub_one_eq_mod, Nat.add_mul_mod_self_left, Nat.mod_eq_of_lt ha]

theorem pairs_shiftRight (ha : a < 2 ^ g) :
    (a + 2 ^ g * b + 2 ^ (2 * g) * x) >>> g = b + 2 ^ g * (x % 2 ^ g) + 2 ^ (2 * g) * (x >>> g) := by
  have hx := Nat.mod_add_div x (2 ^ g)
  rw [Nat.shiftRight_eq_div_pow, Nat.shiftRight_eq_div_pow, Nat.two_mul, Nat.pow_add, Nat.mul_assoc,
    Nat.mul_assoc, Nat.add_assoc, ← Nat.mul_add, Nat.add_mul_div_left _ _ (two_pow_pos g),
    Nat.div_eq_of_lt ha, Nat.zero_add, Nat.add_assoc, ← Nat.mul_add, hx]

theorem counts_and (g m x : Nat) :
    counts g (2 * m) x
        = (counts g (2 * m) x &&& pairMask g m) + 2 ^ g * ((counts g (2 * m) x >>> g) &&& pairMask g m)
      ∧ ((counts g (2 * m) x >>> g) &&& pairMask g m) + (counts g (2 * m) x &&& pairMask g m)
        = counts (2 * g) m x := by
  induction m generalizing x with
  | zero => simp [counts, pairMask]
  | succ m ih =>
      obtain ⟨ih1, ih2⟩ := ih (x / 2 ^ (2 * g))
      have h0 := field_lt (g := g) (x := x)
      have h1 := field_lt (g := g) (x := x / 2 ^ g)
      rw [counts_pair, pairMask, pairs_shiftRight h0,
        and_fields _ (pair_lt h0 h1) (ones_lt g), pair_and_ones h0,
        and_fields _ (pair_lt h1 (mod_lt _ (two_pow_pos g))) (ones_lt g), pair_and_ones h1,
        counts, onesCount_pair]
      constructor
      · conv_lhs => rw [ih1]
        ring
      · rw [← ih2]
        ring

theorem counts_add_and (hg : 2 * g < 2 ^ g) (m x : Nat) :
    ((counts g (2 * m) x >>> g) + counts g (2 * m) x < 2 ^ (2 * g * m))
      ∧ ((counts g (2 * m) x >>> g) + counts g (2 * m) x) &&& pairMask g m = counts (2 * g) m x := by
  induction m generalizing x with
  | zero => simp [counts, pairMask]
  | succ m ih =>
      obtain ⟨ih1, ih2⟩ := ih (x / 2 ^ (2 * g))
      have hle : ∀ y, onesCount (y % 2 ^ g) ≤ g := fun y =>
        onesCount_le (mod_lt _ (two_pow_pos g))
      have h0 := field_lt (g := g) (x := x)
      have hle0 := hle x
      have hle1 := hle (x / 2 ^ g)
      have hlow : counts g (2 * m) (x / 2 ^ (2 * g)) % 2 ^ g ≤ g := by
        cases m with
        | zero => simp [counts]
        | succ m =>
            rw [show 2 * (m + 1) = 2 * m + 1 + 1 by omega, counts, Nat.add_mul_mod_self_left]
            exact (Nat.mod_le _ _).trans (hle _)
      rw [counts_pair, pairMask, pairs_shiftRight h0, counts, onesCount_pair]
      generalize counts g (2 * m) (x / 2 ^ (2 * g)) = c at *
      generalize onesCount (x % 2 ^ g) = a at *
      generalize onesCount (x / 2 ^ g % 2 ^ g) = b at *
      have hsum : b + 2 ^ g * (c % 2 ^ g) + 2 ^ (2 * g) * (c >>> g)
            + (a + 2 ^ g * b + 2 ^ (2 * g) * c)
          = a + b + 2 ^ g * (c % 2 ^ g + b) + 2 ^ (2 * g) * (c >>> g + c) := by ring
      have hpair : a + b + 2 ^ g * (c % 2 ^ g + b) < 2 ^ (2 * g) := pair_lt (by omega) (by omega)
      rw [hsum]
      constructor
      · have hmul : 2 ^ (2 * g) * (c >>> g + c + 1) ≤ 2 ^ (2 * g) * 2 ^ (2 * g * m) :=
          Nat.mul_le_mul_left _ ih1
        rw [Nat.mul_succ] at hmul
        rw [Nat.mul_succ, Nat.pow_add, Nat.mul_comm (2 ^ (2 * g * m))]
        omega
      · rw [and_fields _ hpair (ones_lt g), pair_and_ones (by omega), ih2]

/-! ## Folding the upper half into the lower -/

/-- `m` fields of width `g` with these contents. -/
def row (g : Nat) : Nat → (Nat → Nat) → Nat
  | 0, _ => 0
  | m + 1, c => c 0 + 2 ^ g * row g m fun j => c (j + 1)

theorem row_lt (m : Nat) (h : ∀ j, c j < 2 ^ g) : row g m c < 2 ^ (g * m) := by
  induction m generalizing c with
  | zero => simp [row]
  | succ m ih =>
      have hle : 2 ^ g * (row g m (fun j => c (j + 1)) + 1) ≤ 2 ^ g * 2 ^ (g * m) :=
        Nat.mul_le_mul_left _ (ih fun j => h (j + 1))
      have h0 := h 0
      rw [Nat.mul_succ] at hle
      rw [row, Nat.mul_succ, Nat.pow_add, Nat.mul_comm (2 ^ (g * m))]
      omega

theorem row_mod {s : Nat} (hm : 0 < m) (hs : s ≤ g) (c : Nat → Nat) :
    row g m c % 2 ^ s = c 0 % 2 ^ s := by
  obtain ⟨m, rfl⟩ := Nat.exists_eq_add_of_le' hm
  obtain ⟨t, rfl⟩ := Nat.exists_eq_add_of_le hs
  rw [row, Nat.pow_add, Nat.mul_assoc, Nat.add_mul_mod_self_left]

theorem row_add (g m : Nat) (c d : Nat → Nat) :
    row g m c + row g m d = row g m fun j => c j + d j := by
  induction m generalizing c d with
  | zero => rfl
  | succ m ih =>
      rw [row, row, row, ← ih]
      ring

theorem row_succ (g m : Nat) (c : Nat → Nat) : row g (m + 1) c = row g m c + 2 ^ (g * m) * c m := by
  induction m generalizing c with
  | zero => simp [row]
  | succ m ih =>
      rw [row, ih, row]
      ring

theorem row_shiftRight (h : ∀ j, c j < 2 ^ g) (htop : ∀ j, m ≤ j → c j = 0) (s : Nat) :
    row g m c >>> (g * s) = row g m fun j => c (j + s) := by
  induction s with
  | zero => rfl
  | succ s ih =>
      rw [Nat.mul_succ, Nat.shiftRight_add, ih, Nat.shiftRight_eq_div_pow]
      cases m with
      | zero => simp [row]
      | succ m =>
          rw [row, Nat.add_mul_div_left _ _ (two_pow_pos g), Nat.div_eq_of_lt (h _), Nat.zero_add,
            row_succ, htop _ (show m + 1 ≤ m + (s + 1) by omega), Nat.mul_zero, Nat.add_zero]
          simp only [Nat.add_assoc, Nat.add_comm 1 s]

theorem counts_eq_row (g m x : Nat) :
    counts g m x = row g m fun j => onesCount (x / 2 ^ (g * j) % 2 ^ g) := by
  induction m generalizing x with
  | zero => rfl
  | succ m ih =>
      rw [counts, ih, row, Nat.mul_zero, Nat.pow_zero, Nat.div_one]
      simp only [Nat.div_div_eq_div_mul, ← Nat.pow_add, Nat.mul_succ, Nat.add_comm g]

/-- The sum of `n` fields from each place on. -/
def window (c : Nat → Nat) (n j : Nat) : Nat := ∑ i ∈ Finset.range n, c (j + i)

/-- **One fold**: a row of sums of `n` fields becomes one of sums of twice as many. -/
theorem fold_window (h : ∀ j, window c n j < 2 ^ g) (htop : ∀ j, m ≤ j → c j = 0) :
    row g m (window c n) + row g m (window c n) >>> (g * n) = row g m (window c (2 * n)) := by
  have hzero : ∀ j, m ≤ j → window c n j = 0 := fun j hj =>
    Finset.sum_eq_zero fun i _ => htop _ (Nat.le_trans hj (Nat.le_add_right j i))
  rw [row_shiftRight h hzero, row_add]
  congr 1
  funext j
  unfold window
  rw [Nat.two_mul, Finset.sum_range_add]
  simp only [Nat.add_assoc]

theorem window_le (h : ∀ j, c j ≤ b) (n j : Nat) : window c n j ≤ n * b := by
  have hsum := Finset.sum_le_card_nsmul (Finset.range n) (fun i => c (j + i)) b fun i _ => h (j + i)
  rwa [Finset.card_range] at hsum

theorem window_counts (g n x : Nat) :
    window (fun j => onesCount (x / 2 ^ (g * j) % 2 ^ g)) n 0 = onesCount (x % 2 ^ (g * n)) := by
  unfold window
  simp only [Nat.zero_add]
  induction n with
  | zero => simp [Nat.mod_one]
  | succ n ih =>
      have hsplit : x % 2 ^ (g * (n + 1))
          = x % 2 ^ (g * n) + 2 ^ (g * n) * (x / 2 ^ (g * n) % 2 ^ g) := by
        rw [Nat.mul_succ, Nat.pow_add, Nat.mod_mul]
      rw [Finset.sum_range_succ, ih, hsplit, onesCount_fields _ (mod_lt _ (two_pow_pos _))]

/-- Every bit of `y` says whether `x` has a one in the next `n` places. -/
def Smeared (x y n : Nat) : Prop :=
  ∀ i, y.testBit i = true ↔ ∃ j, j < n ∧ x.testBit (i + j) = true

theorem smeared_one (x : Nat) : Smeared x x 1 := by
  intro i
  constructor
  · intro h
    exact ⟨0, Nat.one_pos, h⟩
  · rintro ⟨j, hj, h⟩
    obtain rfl : j = 0 := by omega
    exact h

theorem Smeared.step {x y n : Nat} (h : Smeared x y n) : Smeared x (y ||| y >>> n) (2 * n) := by
  intro i
  rw [Nat.testBit_or, Nat.testBit_shiftRight, Bool.or_eq_true, h i, h (n + i)]
  constructor
  · rintro (⟨j, hj, hx⟩ | ⟨j, hj, hx⟩)
    · exact ⟨j, by omega, hx⟩
    · exact ⟨n + j, by omega, by rwa [show i + (n + j) = n + i + j by omega]⟩
  · rintro ⟨j, hj, hx⟩
    by_cases hjn : j < n
    · exact Or.inl ⟨j, hjn, hx⟩
    · exact Or.inr ⟨j - n, by omega, by rwa [show n + i + (j - n) = i + j by omega]⟩

theorem Smeared.wide {y k : Nat} (h : Smeared x y n) (hx : x < 2 ^ k) (hk : k ≤ n) :
    Smeared x y (2 * n) := by
  intro i
  rw [h i]
  constructor
  · rintro ⟨j, hj, hbit⟩
    exact ⟨j, by omega, hbit⟩
  · rintro ⟨j, hj, hbit⟩
    refine ⟨j, ?_, hbit⟩
    by_contra hjn
    rw [Nat.testBit_lt_two_pow (Nat.lt_of_lt_of_le hx
      (Nat.pow_le_pow_right (by decide) (show k ≤ i + j by omega)))] at hbit
    cases hbit

theorem Smeared.eq {y : Nat} (h : Smeared x y n) (hx : x < 2 ^ n) : y = 2 ^ Nat.size x - 1 := by
  refine Nat.eq_of_testBit_eq fun i => ?_
  rw [Nat.testBit_two_pow_sub_one, Bool.eq_iff_iff, h i, decide_eq_true_iff, lt_size]
  constructor
  · rintro ⟨j, hj, hbit⟩
    exact (Nat.pow_le_pow_right (by decide) (Nat.le_add_right i j)).trans
      (Nat.ge_two_pow_of_testBit hbit)
  · intro hi
    obtain ⟨j, hbit⟩ := Nat.exists_testBit_of_ne_zero
      (show x / 2 ^ i ≠ 0 from (Nat.div_pos hi (two_pow_pos i)).ne')
    rw [Nat.testBit_div_two_pow] at hbit
    refine ⟨j, ?_, by rwa [Nat.add_comm]⟩
    by_contra hjn
    rw [Nat.testBit_lt_two_pow (Nat.lt_of_lt_of_le hx
      (Nat.pow_le_pow_right (by decide) (show n ≤ j + i by omega)))] at hbit
    cases hbit

/-! ## Lengths -/

theorem size_div_two_pow {j : Nat} (h : 2 ^ j ≤ n) : Nat.size n = Nat.size (n / 2 ^ j) + j := by
  refine eq_of_forall_lt_iff fun m => ?_
  rw [lt_size]
  rcases Nat.lt_or_ge m j with hm | hm
  · exact iff_of_true ((Nat.pow_le_pow_right (by decide) hm.le).trans h) (by omega)
  · obtain ⟨t, rfl⟩ := Nat.exists_eq_add_of_le' hm
    rw [Nat.add_lt_add_iff_right, lt_size, Nat.le_div_iff_mul_le (two_pow_pos j),
      ← Nat.pow_add]

theorem size_two_pow_sub_one (k : Nat) : Nat.size (2 ^ k - 1) = k := by
  refine eq_of_forall_lt_iff fun m => ?_
  rw [lt_size, ← Nat.pow_lt_pow_iff_right (show 1 < 2 by decide)]
  have := two_pow_pos k
  omega

theorem exists_odd_part (hx : x ≠ 0) : ∃ e q, x = 2 ^ e * (2 * q + 1) := by
  obtain ⟨e, m, hm, rfl⟩ := Nat.exists_eq_two_pow_mul_odd hx
  obtain ⟨q, rfl⟩ := hm
  exact ⟨e, q, rfl⟩

theorem odd_part_pred (e q : Nat) :
    2 ^ e * (2 * q + 1) - 1 = (2 ^ e - 1) + 2 ^ e * (2 * q) := by
  have hpos := two_pow_pos e
  rw [Nat.mul_add]
  omega

/-- **The lowest one bit** of an integer: its place, which is the exponent of the largest power of
two that divides the integer, and minus one if there is none. -/
def FirstSetBit (z e : Int) : Prop :=
  if z = 0 then e = -1 else ∃ k : Nat, e = k ∧ IsGreatest {i : Nat | (2 : Int) ^ i ∣ z} k

theorem FirstSetBit.unique {z e e' : Int} (h : FirstSetBit z e) (h' : FirstSetBit z e') : e = e' := by
  unfold FirstSetBit at h h'
  split at h
  · rename_i hz
    rw [if_pos hz] at h'
    rw [h, h']
  · rename_i hz
    rw [if_neg hz] at h'
    obtain ⟨k, rfl, hk⟩ := h
    obtain ⟨k', rfl, hk'⟩ := h'
    rw [hk.unique hk']

theorem firstSetBit_of_odd_part {z : Int} {e q : Nat} (h : z.natAbs = 2 ^ e * (2 * q + 1)) :
    FirstSetBit z e := by
  have hpos := two_pow_pos e
  have hdvd : ∀ i : Nat, (2 : Int) ^ i ∣ z ↔ 2 ^ i ∣ 2 ^ e * (2 * q + 1) := by
    intro i
    rw [← h, ← Int.natCast_dvd]
    rfl
  have hne : z ≠ 0 := by
    have := Nat.mul_ne_zero hpos.ne' (show 2 * q + 1 ≠ 0 by omega)
    omega
  rw [FirstSetBit, if_neg hne]
  refine ⟨e, rfl, (hdvd e).mpr (Nat.dvd_mul_right _ _), fun i hi => ?_⟩
  by_contra hlt
  have hsucc : 2 ^ e * 2 ∣ 2 ^ e * (2 * q + 1) := by
    exact (Nat.pow_dvd_pow 2 (show e + 1 ≤ i by omega)).trans ((hdvd i).mp hi)
  have := Nat.dvd_of_mul_dvd_mul_left hpos hsucc
  omega

theorem xor_pred_shiftRight (e q : Nat) :
    ((2 ^ e * (2 * q + 1)) ^^^ (2 ^ e * (2 * q + 1) - 1)) >>> 1 = 2 ^ e - 1 := by
  have hpos := two_pow_pos e
  have hodd : (2 * q + 1) ^^^ (2 * q) = 1 := by
    have := bitwise_fields (f := xor) rfl (k := 1) (a := 1) (b := 0) (by decide) (by decide) q q
    rw [Nat.zero_add, Nat.add_comm 1] at this
    have hself : Nat.bitwise xor q q = 0 := Nat.xor_self q
    have hzero : ∀ a : Nat, Nat.bitwise xor a 0 = a := Nat.xor_zero
    rw [hself, hzero] at this
    exact this
  have hfields : (0 + 2 ^ e * (2 * q + 1)) ^^^ ((2 ^ e - 1) + 2 ^ e * (2 * q))
      = (0 ^^^ (2 ^ e - 1)) + 2 ^ e * ((2 * q + 1) ^^^ (2 * q)) :=
    bitwise_fields (f := xor) rfl hpos (by omega) _ _
  rw [odd_part_pred, ← Nat.zero_add (2 ^ e * (2 * q + 1)), hfields, hodd, Nat.zero_xor]
  omega

/-- **The length of the predecessor** is shorter by one below a power of two. -/
theorem size_pred (hx : x ≠ 0) :
    Nat.size (x - 1) + (if x &&& (x - 1) = 0 then 1 else 0) = Nat.size x := by
  have hpower := Nat.and_sub_one_eq_zero_iff_isPowerOfTwo hx
  split
  · rename_i h
    obtain ⟨k, rfl⟩ := hpower.mp h
    rw [size_two_pow_sub_one, Nat.size_pow]
  · rename_i h
    have hpos : 0 < Nat.size x := Nat.size_pos.mpr (Nat.pos_of_ne_zero hx)
    have hle : 2 ^ (Nat.size x - 1) ≤ x := lt_size.mp (by omega)
    have hne : x ≠ 2 ^ (Nat.size x - 1) := fun heq => h (hpower.mpr ⟨_, heq⟩)
    have hlt : Nat.size x - 1 < Nat.size (x - 1) := lt_size.mpr (by omega)
    have hmono := Nat.size_le_size (show x - 1 ≤ x by omega)
    omega

theorem and_pred_eq_zero_iff {j : Nat} (h : 2 ^ j ≤ x) :
    x &&& (x - 1) = 0 ↔ x % 2 ^ j = 0 ∧ x / 2 ^ j &&& (x / 2 ^ j - 1) = 0 := by
  have hpos := two_pow_pos j
  have hdiv : x / 2 ^ j ≠ 0 := (Nat.div_pos h hpos).ne'
  rw [Nat.and_sub_one_eq_zero_iff_isPowerOfTwo (by omega),
    Nat.and_sub_one_eq_zero_iff_isPowerOfTwo hdiv]
  constructor
  · rintro ⟨k, rfl⟩
    have hjk : j ≤ k := (Nat.pow_le_pow_iff_right (by decide)).mp h
    exact ⟨Nat.mod_eq_zero_of_dvd (Nat.pow_dvd_pow 2 hjk), k - j, Nat.pow_div hjk (by decide)⟩
  · rintro ⟨hmod, k, hk⟩
    refine ⟨j + k, ?_⟩
    rw [Nat.pow_add, ← hk, Nat.mul_div_cancel' (Nat.dvd_of_mod_eq_zero hmod)]

end BitCounts
