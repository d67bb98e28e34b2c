import Mathlib.Data.Rat.Floor

/-!
# Simplest rationals

A rational of an interval is its simplest when it has the least denominator, and among those with that denominator the
least numerator. Between two positive ends it is found by continued fractions: an integer if there is one, and else the
integer part of both ends and the inverse of what is simplest between the inverses of what remains of them.
-/

namespace MitScheme.SimplestRationals

/-- No number of the set has a smaller denominator, and none with the same denominator a smaller absolute numerator. -/
def IsSimplest (s : Set ℚ) (r : ℚ) : Prop :=
  r ∈ s ∧ ∀ t ∈ s, r.den < t.den ∨ r.den = t.den ∧ |r.num| ≤ |t.num|

/-- No number of the set has a smaller denominator, and none a smaller numerator. -/
structure IsLeastFraction (s : Set ℚ) (r : ℚ) : Prop where
  mem : r ∈ s
  den_le : ∀ t ∈ s, r.den ≤ t.den
  num_le : ∀ t ∈ s, r.num ≤ t.num

variable {x y r : ℚ} {n : Int}

theorem IsLeastFraction.isSimplest {s : Set ℚ} (hpos : ∀ t ∈ s, 0 < t) (h : IsLeastFraction s r) : IsSimplest s r := by
  refine ⟨h.mem, ?_⟩
  intro t ht
  have hr : 0 < r.num := Rat.num_pos.mpr (hpos r h.mem)
  have htnum : 0 < t.num := Rat.num_pos.mpr (hpos t ht)
  rcases (h.den_le t ht).lt_or_eq with hlt | heq
  · exact Or.inl hlt
  · refine Or.inr ⟨heq, ?_⟩
    rw [abs_of_pos hr, abs_of_pos htnum]
    exact h.num_le t ht

theorem le_num_of_le {t : ℚ} (h : n ≤ t) : n * t.den ≤ t.num := by
  have : (n : ℚ) * t.den ≤ t.num := by
    calc (n : ℚ) * t.den ≤ t * t.den := by gcongr
      _ = t.num := Rat.mul_den_eq_num t
  exact_mod_cast this

theorem lt_num_of_lt {t : ℚ} (h : n < t) : n * t.den < t.num := by
  have : (n : ℚ) * t.den < t.num := by
    calc (n : ℚ) * t.den < t * t.den := by gcongr
      _ = t.num := Rat.mul_den_eq_num t
  exact_mod_cast this

theorem isLeast_integer (hn : 0 ≤ n) (hxy : n ≤ y) : IsLeastFraction (Set.Icc (n : ℚ) y) n where
  mem := ⟨le_refl _, hxy⟩
  den_le := by
    intro t ht
    exact t.den_pos
  num_le := by
    intro t ht
    rw [Rat.num_intCast]
    have hnum := le_num_of_le ht.1
    have hden := t.den_pos
    nlinarith

theorem isLeast_succ (hn : 0 ≤ n) (hx : n < x) (hx1 : x ≤ n + 1) (hy : (n : ℚ) + 1 ≤ y) :
    IsLeastFraction (Set.Icc x y) (n + 1) where
  mem := ⟨hx1, hy⟩
  den_le := by
    intro t ht
    have hone : ((n : ℚ) + 1).den = 1 := by exact_mod_cast Rat.den_intCast (n + 1)
    rw [hone]
    exact t.den_pos
  num_le := by
    intro t ht
    have hnum := lt_num_of_lt (lt_of_lt_of_le hx ht.1)
    have hden := t.den_pos
    have hone : ((n : ℚ) + 1).num = n + 1 := by exact_mod_cast Rat.num_intCast (n + 1)
    nlinarith

/-! ## What remains of a number -/

theorem den_inv_of_pos (hr : 0 < r) : (r⁻¹.den : Int) = r.num := by
  rw [Rat.den_inv_of_ne_zero hr.ne']
  have := Rat.num_pos.mpr hr
  omega

theorem num_inv_of_pos (hr : 0 < r) : r⁻¹.num = r.den := by
  rw [Rat.num_inv, Int.sign_eq_one_of_pos (Rat.num_pos.mpr hr), one_mul]

theorem num_intCast_add (n : Int) (r : ℚ) : (n + r).num = n * r.den + r.num := by
  have hden : ((n + r).den : ℚ) = r.den := by rw [Rat.intCast_add_den]
  have : ((n + r).num : ℚ) = n * r.den + r.num := by
    rw [← Rat.mul_den_eq_num (n + r), hden, add_mul, Rat.mul_den_eq_num]
  exact_mod_cast this

theorem den_inv_remainder (h : 0 < x - n) (h1 : x < n + 1) : (x - n)⁻¹.den < x.den := by
  have hden : (x - n)⁻¹.den = ((x - n).num : Int) := den_inv_of_pos h
  have hnum : (x - n).num < ((x - n).den : Int) := by
    have hlt : (x - n).num < 1 * ((x - n).den : ℚ) := by
      rw [← Rat.mul_den_eq_num]
      gcongr
      linarith
    rw [one_mul] at hlt
    exact_mod_cast hlt
  rw [Rat.sub_intCast_den] at hnum
  omega

theorem isLeast_expand (hn : 0 ≤ n) (hx : n < x) (hxy : x ≤ y) (hr : IsLeastFraction (Set.Icc (y - n)⁻¹ (x - n)⁻¹) r) (hpos : 0 < r) :
    IsLeastFraction (Set.Icc x y) (n + r⁻¹) := by
  have hden : ∀ s : ℚ, 0 < s → ((n + s⁻¹).den : Int) = s.num := by
    intro s hs
    rw [Rat.intCast_add_den, den_inv_of_pos hs]
  have hnum : ∀ s : ℚ, 0 < s → (n + s⁻¹).num = n * s.num + s.den := by
    intro s hs
    rw [num_intCast_add, den_inv_of_pos hs, num_inv_of_pos hs]
  -- A number between the ends is the integer part and the inverse of a number between the inverses.
  have hback : ∀ t ∈ Set.Icc x y, ∃ s, 0 < s ∧ s ∈ Set.Icc (y - n)⁻¹ (x - n)⁻¹ ∧ t = n + s⁻¹ := by
    intro t ht
    have hmid : 0 < t - n := by linarith [ht.1]
    refine ⟨(t - n)⁻¹, inv_pos.mpr hmid, ⟨?_, ?_⟩, ?_⟩
    · have := ht.2
      gcongr
    · have := ht.1
      gcongr
    · rw [inv_inv]
      ring
  constructor
  · obtain ⟨hlow, hhigh⟩ := hr.mem
    have hlowpos : 0 < x - n := by linarith
    constructor
    · have : x - n ≤ r⁻¹ := (le_inv_comm₀ hpos hlowpos).mp hhigh
      linarith
    · have : r⁻¹ ≤ y - n := (inv_le_comm₀ (by linarith) hpos).mp hlow
      linarith
  · intro t ht
    obtain ⟨s, hs, hmem, rfl⟩ := hback t ht
    have := hr.num_le s hmem
    have h1 := hden r hpos
    have h2 := hden s hs
    omega
  · intro t ht
    obtain ⟨s, hs, hmem, rfl⟩ := hback t ht
    rw [hnum r hpos, hnum s hs]
    have := hr.num_le s hmem
    have hd : (r.den : Int) ≤ s.den := by exact_mod_cast hr.den_le s hmem
    nlinarith

theorem isSimplest_neg (h : IsSimplest (Set.Icc (-y) (-x)) r) : IsSimplest (Set.Icc x y) (-r) := by
  obtain ⟨⟨hlow, hhigh⟩, hleast⟩ := h
  refine ⟨⟨by linarith, by linarith⟩, ?_⟩
  intro t ht
  have := hleast (-t) ⟨by linarith [ht.2], by linarith [ht.1]⟩
  rw [Rat.neg_num, abs_neg] at this ⊢
  exact this

theorem isSimplest_zero (hx : x ≤ 0) (hy : 0 ≤ y) : IsSimplest (Set.Icc x y) 0 := by
  refine ⟨⟨hx, hy⟩, ?_⟩
  intro t ht
  have hden := t.den_pos
  have hnum := abs_nonneg t.num
  rw [Rat.den_zero, Rat.num_zero, abs_zero]
  omega

theorem IsSimplest.unique {r' : ℚ} (h : IsSimplest (Set.Icc x y) r) (h' : IsSimplest (Set.Icc x y) r') : r = r' := by
  have hden : r.den = r'.den := by
    rcases h.2 r' h'.1 with h1 | h1 <;> rcases h'.2 r h.1 with h2 | h2 <;> omega
  have habs : |r.num| = |r'.num| := by
    rcases h.2 r' h'.1 with h1 | h1 <;> rcases h'.2 r h.1 with h2 | h2 <;> omega
  rcases abs_eq_abs.mp habs with hnum | hnum
  · exact Rat.ext hnum hden
  · -- The numbers are opposites, so that zero lies between them and is simpler.
    have hneg : r = -r' := Rat.ext (by rw [hnum, Rat.neg_num]) (by rw [hden, Rat.neg_den])
    have hzero : (0 : ℚ) ∈ Set.Icc x y := by
      obtain ⟨h1, h2⟩ := h.1
      obtain ⟨h3, h4⟩ := h'.1
      constructor <;> linarith
    have hnum0 : r.num = 0 := by
      have := h.2 0 hzero
      rw [Rat.den_zero, Rat.num_zero, abs_zero] at this
      have hpos := r.den_pos
      have := abs_nonneg r.num
      have : |r.num| = 0 := by omega
      exact abs_eq_zero.mp this
    have hr : r = 0 := Rat.num_eq_zero.mp hnum0
    linarith

end MitScheme.SimplestRationals
