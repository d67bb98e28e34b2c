import MitScheme.Lib.SimplestRationals
import MitScheme.Runtime.RationalsProof

/-!
# The simplest rational of an interval

Between positive ends the loop follows the continued fractions of both ends. The denominators of the ends become smaller
in every turn, and what the loop returns is least in both respects.
-/

namespace MitScheme.Arith

open ExactRational SimplestRationals

variable {d n : Int} {q y x : ExactRational}

theorem intFloor_eq (hd : 0 < d) : intFloor n d = n / d := by
  unfold intFloor
  simp only [Int.tdiv_eq_ediv, Int.sign_eq_one_of_pos hd, ← Int.dvd_iff_tmod_eq_zero]
  by_cases hn : n < 0
  · by_cases hdvd : d ∣ n
    · simp [hdvd]
    · simp only [if_pos hn, hdvd, hd.not_gt, or_self, if_false, not_le.mpr hn]
      omega
  · simp only [if_neg hn, hd.not_gt, not_lt.mp hn, not_false_eq_true, or_true, true_or, if_true]
    omega

theorem ratFloor_eq (hq : q.Canonical) : ratFloor q = ⌊q.value⌋ := by
  cases q with
  | integer n => exact (Int.floor_intCast n).symm
  | ratnum n d =>
      have hd : 0 < d := by
        have := hq.1
        omega
      rw [ratFloor, intFloor_eq hd, value_ratnum]
      have hcast : (d : ℚ) = ((d.toNat : Nat) : ℚ) := by
        exact_mod_cast (Int.toNat_of_nonneg hd.le).symm
      rw [hcast, Rat.floor_intCast_div_natCast, Int.toNat_of_nonneg hd.le]

theorem floor_lt_ratnum (h : (ratnum n d).Canonical) :
    (⌊(ratnum n d).value⌋ : ℚ) < (ratnum n d).value := by
  refine lt_of_le_of_ne (Int.floor_le _) ?_
  intro heq
  have hint : integer ⌊(ratnum n d).value⌋ = ratnum n d := Canonical.ext (canonical_integer _) h heq
  cases hint

/-! ## The loop -/

theorem ratInvert_ofRat {x : ℚ} (h : 0 < x) : ratInvert (ofRat x) = .ok (ofRat x⁻¹) := by
  rw [ratInvert_eq (canonical_ofRat x), value_ofRat, if_neg h.ne']

theorem simplestLoop_ratnum (fuel : Nat) (hx : (ratnum n d).Canonical) (hy : y.Canonical)
    (hxy : (ratnum n d).value < y.value) :
    simplestLoop (fuel + 1) (ratnum n d) y =
      if ⌊(ratnum n d).value⌋ = ⌊y.value⌋ then
        simplestLoop fuel (ofRat (y.value - ⌊(ratnum n d).value⌋)⁻¹)
            (ofRat ((ratnum n d).value - ⌊(ratnum n d).value⌋)⁻¹) >>= fun r =>
          ratInvert r >>= ratAdd (.integer ⌊(ratnum n d).value⌋)
      else .ok (ofRat (⌊(ratnum n d).value⌋ + 1)) := by
  have hlow := floor_lt_ratnum hx
  have hequal : ratEqual (.integer ⌊(ratnum n d).value⌋) (.integer ⌊y.value⌋) = true ↔
      ⌊(ratnum n d).value⌋ = ⌊y.value⌋ := by
    rw [ratEqual_iff (canonical_integer _) (canonical_integer _), value_integer, value_integer, Int.cast_inj]
  simp only [simplestLoop, ratFloor_eq hx, ratFloor_eq hy, hequal]
  split
  · rename_i hsame
    rw [← hsame, ratSubtract_eq hy (canonical_integer _), ratSubtract_eq hx (canonical_integer _)]
    simp only [bind, Except.bind, value_integer]
    rw [ratInvert_ofRat (sub_pos.mpr (hlow.trans hxy))]
    rw [ratInvert_ofRat (sub_pos.mpr hlow)]
  · rw [ratSucc_eq (canonical_integer _), value_integer]

theorem simplestLoop_least (fuel : Nat) (hx : x.Canonical) (hy : y.Canonical) (hpos : 0 < x.value)
    (hxy : x.value < y.value) (hfuel : x.value.den + y.value.den ≤ fuel) :
    ∃ r, simplestLoop fuel x y = .ok (ofRat r) ∧ IsLeastFraction (Set.Icc x.value y.value) r := by
  induction fuel generalizing x y with
  | zero =>
      have := x.value.den_pos
      omega
  | succ fuel ih =>
      cases x with
      | integer n =>
          have hn : (0 : ℚ) < n := hpos
          refine ⟨n, ?_, isLeast_integer (by exact_mod_cast hn.le) hxy.le⟩
          rw [simplestLoop, integer_eq]
      | ratnum n d =>
          have hlow := floor_lt_ratnum hx
          have hfloor : 0 ≤ ⌊(ratnum n d).value⌋ := Int.floor_nonneg.mpr hpos.le
          have hhigh := Int.lt_floor_add_one (ratnum n d).value
          rw [simplestLoop_ratnum fuel hx hy hxy]
          generalize (ratnum n d).value = a at *
          split
          · -- Both ends have the same integer part, and the next term of the continued fraction is expanded.
            rename_i hsame
            have hyhigh : y.value < ⌊a⌋ + 1 := by
              rw [hsame]
              exact Int.lt_floor_add_one y.value
            have hx0 : 0 < a - ⌊a⌋ := sub_pos.mpr hlow
            have hy0 : 0 < y.value - ⌊a⌋ := sub_pos.mpr (hlow.trans hxy)
            have hden := den_inv_remainder hx0 hhigh
            have hyden := den_inv_remainder hy0 hyhigh
            have hbetween : (y.value - ⌊a⌋)⁻¹ < (a - ⌊a⌋)⁻¹ := by gcongr
            obtain ⟨r, hloop, hleast⟩ := ih (canonical_ofRat (y.value - ⌊a⌋)⁻¹) (canonical_ofRat (a - ⌊a⌋)⁻¹)
              (by rw [value_ofRat]; exact inv_pos.mpr hy0) (by rw [value_ofRat, value_ofRat]; exact hbetween)
              (by rw [value_ofRat, value_ofRat]; omega)
            rw [value_ofRat, value_ofRat] at hleast
            have hr : 0 < r := lt_of_lt_of_le (inv_pos.mpr hy0) hleast.mem.1
            refine ⟨⌊a⌋ + r⁻¹, ?_, isLeast_expand hfloor hlow hxy.le hleast hr⟩
            rw [hloop]
            simp only [bind, Except.bind]
            rw [ratInvert_ofRat hr]
            simp only
            rw [ratAdd_eq (canonical_integer _) (canonical_ofRat _), value_ofRat, value_integer]
          · have hsucc : (⌊a⌋ : ℚ) + 1 ≤ y.value := by
              have hle : ⌊a⌋ ≤ ⌊y.value⌋ := Int.floor_le_floor hxy.le
              have : ⌊a⌋ + 1 ≤ ⌊y.value⌋ := by omega
              exact_mod_cast Int.le_floor.mp this
            exact ⟨_, rfl, isLeast_succ hfloor hlow hhigh.le hsucc⟩

/-! ## Any interval -/

theorem ratPositive_iff (hq : q.Canonical) : ratPositive q = true ↔ 0 < q.value := by
  cases q with
  | integer n => simp [ratPositive]
  | ratnum n d =>
      have hd : (0 : ℚ) < d := by exact_mod_cast (by have := hq.1; omega : 0 < d)
      simp [ratPositive, div_pos_iff_of_pos_right hd]

theorem ratNegative_iff (hq : q.Canonical) : ratNegative q = true ↔ q.value < 0 := by
  cases q with
  | integer n => simp [ratNegative]
  | ratnum n d =>
      have hd : (0 : ℚ) < d := by exact_mod_cast (by have := hq.1; omega : 0 < d)
      simp [ratNegative, div_neg_iff, hd, hd.not_gt]

theorem simplestBetween_simplest (fuel : Nat) (hx : x.Canonical) (hy : y.Canonical)
    (hxy : x.value < y.value) (hfuel : x.value.den + y.value.den ≤ fuel) :
    ∃ r, simplestBetween fuel x y = .ok (ofRat r) ∧ IsSimplest (Set.Icc x.value y.value) r := by
  unfold simplestBetween
  simp only [ratPositive_iff hx, ratNegative_iff hy]
  split
  · rename_i hpos
    obtain ⟨r, hloop, hleast⟩ := simplestLoop_least fuel hx hy hpos hxy hfuel
    exact ⟨r, hloop, hleast.isSimplest fun t ht => hpos.trans_le ht.1⟩
  · rename_i hpos
    split
    · -- The interval is mirrored, and the number that is found in it is mirrored back.
      rw [ratNegate_eq hx, ratNegate_eq hy]
      obtain ⟨r, hloop, hleast⟩ := simplestLoop_least fuel (canonical_ofRat (-y.value)) (canonical_ofRat (-x.value))
        (by rw [value_ofRat]; linarith) (by rw [value_ofRat, value_ofRat]; linarith)
        (by rw [value_ofRat, value_ofRat, Rat.neg_den, Rat.neg_den]; omega)
      rw [value_ofRat, value_ofRat] at hleast
      refine ⟨-r, ?_, isSimplest_neg (hleast.isSimplest fun t ht => lt_of_lt_of_le (by linarith) ht.1)⟩
      rw [hloop]
      simp only [bind, Except.bind]
      rw [ratNegate_eq (canonical_ofRat r), value_ofRat]
    · rename_i hneg
      refine ⟨0, ?_, isSimplest_zero (not_lt.mp hpos) (not_lt.mp hneg)⟩
      rw [integer_eq, Int.cast_zero]

theorem ratSimplestRational_simplest (fuel : Nat) (hx : x.Canonical) (hy : y.Canonical)
    (hfuel : x.value.den + y.value.den ≤ fuel) :
    ∃ r, ratSimplestRational fuel x y = .ok (ofRat r) ∧ IsSimplest (Set.uIcc x.value y.value) r := by
  unfold ratSimplestRational
  simp only [ratLess_iff hx hy, ratLess_iff hy hx]
  split
  · rename_i hlt
    rw [Set.uIcc_of_le hlt.le]
    exact simplestBetween_simplest fuel hx hy hlt hfuel
  · rename_i hnot
    split
    · rename_i hlt
      rw [Set.uIcc_of_ge hlt.le]
      exact simplestBetween_simplest fuel hy hx hlt (by omega)
    · rename_i hnot'
      have heq : x.value = y.value := le_antisymm (not_lt.mp hnot') (not_lt.mp hnot)
      refine ⟨x.value, by rw [ofRat_value hx], ?_⟩
      rw [← heq, Set.uIcc_self]
      refine ⟨rfl, ?_⟩
      intro t ht
      rw [Set.mem_singleton_iff.mp ht]
      exact Or.inr ⟨rfl, le_refl _⟩

theorem uIcc_distance (x y : ℚ) : Set.uIcc (x - y) (x + y) = { t | |t - x| ≤ |y| } := by
  ext t
  rw [Set.mem_ofPred_eq, abs_le]
  rcases le_total 0 y with hy | hy
  · rw [Set.uIcc_of_le (by linarith), abs_of_nonneg hy]
    constructor
    · intro h
      constructor <;> linarith [h.1, h.2]
    · intro h
      constructor <;> linarith [h.1, h.2]
  · rw [Set.uIcc_of_ge (by linarith), abs_of_nonpos hy]
    constructor
    · intro h
      constructor <;> linarith [h.1, h.2]
    · intro h
      constructor <;> linarith [h.1, h.2]

/-- The simplest rational between two numbers is found in as many turns as their denominators allow, and so is the
simplest rational within a distance of a number. -/
theorem simplestRational_found {x y : ExactRational} (hx : x.Canonical) (hy : y.Canonical) :
    (∃ r, IsSimplest (Set.uIcc x.value y.value) r ∧
      ∀ fuel, x.value.den + y.value.den ≤ fuel → Returns (ratSimplestRational fuel x y) r) ∧
    (∃ r, IsSimplest { t | |t - x.value| ≤ |y.value| } r ∧
      ∀ fuel, (x.value - y.value).den + (x.value + y.value).den ≤ fuel → Returns (ratRationalize fuel x y) r) := by
  -- The number does not depend on the number of turns, since there is only one simplest number.
  have hfound : ∀ {a b : ExactRational}, a.Canonical → b.Canonical → ∃ r, IsSimplest (Set.uIcc a.value b.value) r ∧
      ∀ fuel, a.value.den + b.value.den ≤ fuel → Returns (ratSimplestRational fuel a b) r := by
    intro a b ha hb
    obtain ⟨r, -, hsimplest⟩ := ratSimplestRational_simplest _ ha hb le_rfl
    refine ⟨r, hsimplest, ?_⟩
    intro fuel hfuel
    obtain ⟨r', hrun, hsimplest'⟩ := ratSimplestRational_simplest fuel ha hb hfuel
    rw [hrun, IsSimplest.unique hsimplest' hsimplest]
    exact returns_ofRat r
  refine ⟨hfound hx hy, ?_⟩
  have hends := hfound (canonical_ofRat (x.value - y.value)) (canonical_ofRat (x.value + y.value))
  simp only [value_ofRat, uIcc_distance] at hends
  obtain ⟨r, hsimplest, hrun⟩ := hends
  refine ⟨r, hsimplest, ?_⟩
  intro fuel hfuel
  rw [ratRationalize, ratSubtract_eq hx hy, ratAdd_eq hx hy]
  exact hrun fuel hfuel

theorem simplestRational_found_third : ∃ r, IsSimplest (Set.uIcc (3 / 10) (1 / 3)) r ∧
    ∀ fuel, 13 ≤ fuel → Returns (ratSimplestRational fuel (.ratnum 3 10) (.ratnum 1 3)) r := by
  have hx : (ratnum 3 10).Canonical := ⟨by decide, Int.isCoprime_iff_gcd_eq_one.mpr (by decide)⟩
  have hy : (ratnum 1 3).Canonical := ⟨by decide, isCoprime_one_left⟩
  have hfound := (simplestRational_found hx hy).1
  have hx : (ratnum 3 10).value = 3 / 10 := rfl
  have hy : (ratnum 1 3).value = 1 / 3 := rfl
  have hden : (3 / 10 : ℚ).den + (1 / 3 : ℚ).den = 13 := by decide +kernel
  rw [hx, hy, hden] at hfound
  exact hfound

end MitScheme.Arith
