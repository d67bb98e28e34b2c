import Mathlib.Data.Nat.Size
import Mathlib.Tactic.Ring

/-!
# Logarithmic balance

Two weights are near each other if their lengths in binary differ by at most one. A tree
whose subtrees are near each other at every node is logarithmic in depth, and when one
subtree has become too heavy by one more digit, a single or a double rotation makes the
weights near again. The lemmas here are the arithmetic of that.
-/

namespace MitScheme.LogBalance

open Nat (lt_size size_le)

/-- The lengths of the weights differ by at most one. -/
structure Near (a b : Nat) : Prop where
  left : a.size ≤ b.size + 1
  right : b.size ≤ a.size + 1

theorem Near.symm {a b : Nat} (h : Near a b) : Near b a := ⟨h.right, h.left⟩

theorem size_and_lt {a b : Nat} (h : a < b) : 2 * (a &&& b) < b ↔ a.size < b.size := by
  have hb : b < 2 ^ b.size := Nat.lt_size_self b
  constructor
  · by_contra hle
    have hpos : 0 < b.size := Nat.size_pos.mpr (by omega)
    obtain ⟨n, hn⟩ : ∃ n, b.size = n + 1 := ⟨b.size - 1, by omega⟩
    -- both have the leading digit, so their common part has it
    have ha' : 2 ^ n ≤ a := lt_size.mp (by omega)
    have hb' : 2 ^ n ≤ b := lt_size.mp (by omega)
    have hbit : ∀ x, 2 ^ n ≤ x → x < 2 ^ (n + 1) → x.testBit n = true := by
      intro x hx hx'
      rw [Nat.testBit_eq_decide_div_mod_eq]
      have hdiv : x / 2 ^ n = 1 := by
        refine Nat.div_eq_of_lt_le ?_ ?_
        · omega
        · omega
      simp [hdiv]
    rw [hn] at hb
    have hbits : (a &&& b).testBit n = true := by
      rw [Nat.testBit_and, hbit a ha' (by omega), hbit b hb' hb]
      rfl
    have hge : 2 ^ n ≤ a &&& b := Nat.ge_two_pow_of_testBit hbits
    omega
  · intro hlt
    obtain ⟨n, hn⟩ : ∃ n, b.size = n + 1 := ⟨b.size - 1, by omega⟩
    have ha : a < 2 ^ n := size_le.mp (by omega)
    have hb' : 2 ^ n ≤ b := lt_size.mp (by omega)
    rw [hn] at hb
    -- the common part has only digits of `b` below the leading one
    have hmod : a &&& b = a &&& (b % 2 ^ n) := by
      apply Nat.eq_of_testBit_eq
      intro i
      by_cases hi : i < n
      · simp [hi]
      · have : a.testBit i = false :=
          Nat.testBit_lt_two_pow (lt_of_lt_of_le ha (Nat.pow_le_pow_right (by omega) (by omega)))
        simp [this]
    have hle : a &&& b ≤ b % 2 ^ n := by
      rw [hmod]
      exact Nat.and_le_right
    have hrest : b % 2 ^ n = b - 2 ^ n := by
      rw [Nat.mod_eq_sub_mod hb', Nat.mod_eq_of_lt (by omega)]
    omega

theorem size_half (b : Nat) : (b / 2).size = b.size - 1 := by
  have h : ∀ n, b.size ≤ n + 1 ↔ (b / 2).size ≤ n := by
    intro n
    rw [size_le, size_le]
    omega
  have h1 := (h (b.size - 1)).mp (by omega)
  have h2 := (h (b / 2).size).mpr (le_refl _)
  omega

theorem size_bounds {x y : Nat} (h : y.size ≤ x.size + 1) (k : Nat) :
    (x < 2 ^ k → y < 2 * 2 ^ k) ∧ (2 * x + 1 < 2 ^ k → y < 2 ^ k) := by
  constructor
  · intro hx
    rw [← pow_succ']
    exact size_le.mp (le_trans h (Nat.succ_le_succ (size_le.mpr hx)))
  · intro hx
    cases k with
    | zero => omega
    | succ k =>
        exact size_le.mp (le_trans h (Nat.succ_le_succ (size_le.mpr (by omega))))

theorem size_le_of_bounds {x y : Nat} (k : Nat) (hx : x < 2 * 2 ^ k) (hy : 2 ^ k ≤ 2 * y + 1) :
    x.size ≤ y.size + 1 := by
  rw [← pow_succ'] at hx
  refine le_trans (size_le.mpr hx) (Nat.succ_le_succ ?_)
  cases k with
  | zero => omega
  | succ k =>
      exact lt_size.mpr (by omega)

theorem size_le_of_cases {x y : Nat} (k : Nat) (h8 : x < 8 * 2 ^ k) (h1 : 2 ^ k ≤ 2 * y + 1)
    (h2 : 2 * 2 ^ k ≤ x → 2 * 2 ^ k ≤ 2 * y + 1) (h4 : 4 * 2 ^ k ≤ x → 4 * 2 ^ k ≤ 2 * y + 1) :
    x.size ≤ y.size + 1 := by
  have hpow1 : 2 ^ (k + 1) = 2 * 2 ^ k := by ring
  have hpow2 : 2 ^ (k + 2) = 4 * 2 ^ k := by ring
  by_cases hx4 : 4 * 2 ^ k ≤ x
  · exact size_le_of_bounds (k + 2) (by omega) (by rw [hpow2]; exact h4 hx4)
  · by_cases hx2 : 2 * 2 ^ k ≤ x
    · exact size_le_of_bounds (k + 1) (by omega) (by rw [hpow1]; exact h2 hx2)
    · exact size_le_of_bounds k (by omega) h1

/-! ## Rotations -/

section

variable {a b c y1 y2 : Nat}

theorem near_single (hheavy : (1 + b + c).size = a.size + 2) (hbc : Near b c)
    (hsingle : b.size ≤ c.size) : Near a b ∧ Near (1 + a + b) c := by
  have hlow : 2 ^ (a.size + 1) ≤ 1 + b + c := lt_size.mp (by omega)
  have hhigh : 1 + b + c < 2 ^ (a.size + 2) := size_le.mp (by omega)
  have ha : a < 2 ^ a.size := Nat.lt_size_self a
  cases hn : a.size with
  | zero =>
      rw [hn] at hlow hhigh ha
      have hle : ∀ k, c < 2 ^ k → b < 2 ^ k := fun k h =>
        size_le.mp (le_trans hsingle (size_le.mpr h))
      have hle0 := hle 0
      refine ⟨⟨?_, ?_⟩, ?_, ?_⟩
      all_goals exact size_le_of_cases 0 (by omega) (by omega) (by omega) (by omega)
  | succ k =>
      have hlow' : 2 ^ k ≤ a := lt_size.mp (by omega)
      rw [hn] at hlow hhigh ha
      have hpow2 : 2 ^ (k + 2) = 4 * 2 ^ k := by ring
      have hpow3 : 2 ^ (k + 3) = 8 * 2 ^ k := by ring
      have hb2 := size_bounds hbc.right (k + 1)
      have hle : ∀ k, c < 2 ^ k → b < 2 ^ k := fun k h =>
        size_le.mp (le_trans hsingle (size_le.mpr h))
      have hle1 := hle (k + 1)
      have hle2 := hle (k + 2)
      rw [hpow3] at hhigh
      refine ⟨⟨?_, ?_⟩, ?_, ?_⟩
      all_goals exact size_le_of_cases k (by omega) (by omega) (by omega) (by omega)

theorem near_double (hheavy : (1 + (1 + y1 + y2) + c).size = a.size + 2)
    (hbc : Near (1 + y1 + y2) c) (hdouble : c.size < (1 + y1 + y2).size) (hy : Near y1 y2) :
    Near a y1 ∧ Near y2 c ∧ Near (1 + a + y1) (1 + y2 + c) := by
  have hlow : 2 ^ (a.size + 1) ≤ 1 + (1 + y1 + y2) + c := lt_size.mp (by omega)
  have hhigh : 1 + (1 + y1 + y2) + c < 2 ^ (a.size + 2) := size_le.mp (by omega)
  have ha : a < 2 ^ a.size := Nat.lt_size_self a
  have hlt : ∀ k, 1 + y1 + y2 < 2 * 2 ^ k → c < 2 ^ k := by
    intro k h
    rw [← pow_succ'] at h
    have := size_le.mpr h
    exact size_le.mp (by omega)
  cases hn : a.size with
  | zero =>
      rw [hn] at hlow hhigh ha
      have hb := size_bounds hbc.left 0
      have hlt0 := hlt 0
      norm_num at hlow hhigh ha hb hlt0
      subst ha
      have hy1 : y1 = 0 := by omega
      have hy2 : y2 = 0 := by omega
      have hc : c = 0 := by omega
      subst hy1 hy2 hc
      exact ⟨⟨by simp, by simp⟩, ⟨by simp, by simp⟩, by simp, by simp⟩
  | succ k =>
      have hlow' : 2 ^ k ≤ a := lt_size.mp (by omega)
      rw [hn] at hlow hhigh ha
      have hpow3 : 2 ^ (k + 3) = 8 * 2 ^ k := by ring
      have hb2 := size_bounds hbc.left (k + 1)
      have hc1 := size_bounds hy.left k
      have hc2 := size_bounds hy.left (k + 1)
      have hd1 := size_bounds hy.right k
      have hlt2 := hlt (k + 1)
      rw [hpow3] at hhigh
      refine ⟨⟨?_, ?_⟩, ⟨?_, ?_⟩, ?_, ?_⟩
      all_goals exact size_le_of_cases k (by omega) (by omega) (by omega) (by omega)

end

end MitScheme.LogBalance
