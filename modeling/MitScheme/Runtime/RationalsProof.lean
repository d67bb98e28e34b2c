import MitScheme.Runtime.Rationals
import Mathlib.RingTheory.Coprime.Lemmas
import Mathlib.Tactic.FieldSimp
import Mathlib.Tactic.Linarith

/-!
# The arithmetic of exact rationals

Every exact rational that is in canonical form is the one that `ofRat` gives for its value. What an operation has to
show is then one equation: its result is what `ofRat` gives for the value of the result.
-/

namespace MitScheme.Arith

open Or (inl inr)

namespace ExactRational

/-- A ratnum is in lowest terms and is not an integer. -/
def Canonical : ExactRational → Prop
  | .integer _ => True
  | .ratnum n d => 2 ≤ d ∧ IsCoprime n d

/-- The number that is meant. -/
def value : ExactRational → ℚ
  | .integer n => n
  | .ratnum n d => n / d

/-- The canonical form of a number. -/
def ofRat (x : ℚ) : ExactRational := if x.den = 1 then .integer x.num else .ratnum x.num x.den

@[simp] theorem value_integer (n : Int) : (integer n).value = n := rfl

@[simp] theorem value_ratnum (n d : Int) : (ratnum n d).value = n / d := rfl

theorem canonical_integer (n : Int) : (integer n).Canonical := trivial

theorem canonical_ofRat (x : ℚ) : (ofRat x).Canonical := by
  unfold ofRat
  split
  · exact trivial
  · have hpos := x.den_pos
    refine ⟨by omega, ?_⟩
    rw [Int.isCoprime_iff_gcd_eq_one]
    exact x.reduced

@[simp] theorem value_ofRat (x : ℚ) : (ofRat x).value = x := by
  unfold ofRat
  split
  · rename_i hden
    exact Rat.coe_int_num_of_den_eq_one hden
  · exact Rat.num_div_den x

theorem integer_eq (n : Int) : integer n = ofRat n := by
  rw [ofRat, if_pos (Rat.den_intCast n), Rat.num_intCast]

theorem ratnum_eq {n d : Int} (hd : 2 ≤ d) (hcoprime : IsCoprime n d) : ratnum n d = ofRat (n / d) := by
  have hnat : Nat.Coprime n.natAbs d.natAbs := Int.isCoprime_iff_gcd_eq_one.mp hcoprime
  have hnum := Rat.num_div_eq_of_coprime (by omega) hnat
  have hden := Rat.den_div_eq_of_coprime (by omega) hnat
  rw [ofRat, if_neg, hnum, hden]
  omega

theorem ofRat_value {q : ExactRational} (h : q.Canonical) : ofRat q.value = q := by
  cases q with
  | integer n => exact (integer_eq n).symm
  | ratnum n d => exact (ratnum_eq h.1 h.2).symm

theorem Canonical.ext {q r : ExactRational} (hq : q.Canonical) (hr : r.Canonical) (h : q.value = r.value) : q = r := by
  rw [← ofRat_value hq, h, ofRat_value hr]

end ExactRational

open ExactRational

theorem intGcd_eq (n m : Int) : intGcd n m = Int.gcd n m := by
  fun_induction intGcd n m with
  | case1 n m hm ih =>
      rw [ih, Int.gcd, Int.gcd, Int.natAbs_tmod, Nat.gcd_comm m.natAbs, ← Nat.gcd_rec, Nat.gcd_comm]
  | case2 n m hm hneg | case3 n m hm hneg =>
      rw [not_not.mp hm, Int.gcd_zero_right]
      omega

theorem intQuotient_mul {d : Int} (hd : d ≠ 0) (a : Int) : intQuotient (d * a) d = .ok a := by
  rw [intQuotient, if_neg hd, Int.mul_tdiv_cancel_left a hd]

theorem intGcd_parts {n m : Int} (h : n ≠ 0 ∨ m ≠ 0) :
    ∃ a b, IsCoprime a b ∧ 0 < intGcd n m ∧ n = intGcd n m * a ∧ m = intGcd n m * b := by
  have hpos : 0 < Int.gcd n m := Int.gcd_pos_iff.mpr h
  obtain ⟨a, b, hgcd, hn, hm⟩ := Int.exists_gcd_one hpos
  rw [intGcd_eq]
  refine ⟨a, b, Int.isCoprime_iff_gcd_eq_one.mpr hgcd, Int.natCast_pos.mpr hpos, ?_, ?_⟩
  · rw [mul_comm, ← hn]
  · rw [mul_comm, ← hm]

/-! ## Calculating -/

theorem makeRational_eq {n d : Int} (hd : 0 < d) (hcoprime : n = 0 ∨ IsCoprime n d) :
    makeRational n d = ofRat (n / d) := by
  unfold makeRational
  split
  · rename_i h
    rcases h with rfl | rfl
    · rw [integer_eq, Int.cast_zero, zero_div]
    · rw [integer_eq, Int.cast_one, div_one]
  · rename_i h
    obtain ⟨hn, hone⟩ := not_or.mp h
    exact ratnum_eq (by omega) (hcoprime.resolve_left hn)

theorem sum_coprime {u v a b d s : Int} (hs : IsUnit s) (hu : IsCoprime u (d * a)) (hv : IsCoprime v (d * b))
    (hab : IsCoprime a b) : IsCoprime (u * b + s * (v * a)) a ∧ IsCoprime (u * b + s * (v * a)) b := by
  constructor
  · rw [← mul_assoc, IsCoprime.add_mul_right_left_iff]
    exact hu.of_mul_right_right.mul_left hab.symm
  · rw [add_comm, IsCoprime.add_mul_right_left_iff, isCoprime_mul_unit_left_left hs]
    exact hv.of_mul_right_right.mul_left hab

section

variable {q r : ExactRational}

theorem additionOperator_eq {op : Int → Int → Int} {s : Int} (hs : IsUnit s) (hop : ∀ n m, op n m = n + s * m)
    (hq : q.Canonical) (hr : r.Canonical) : additionOperator op q r = .ok (ofRat (q.value + s * r.value)) := by
  unfold additionOperator ratBinaryOperator
  cases q with
  | integer u =>
      cases r with
      | integer v =>
          simp only [hop, value_integer]
          rw [integer_eq]
          push_cast
          rfl
      | ratnum v v' =>
          obtain ⟨hv', hcoprime⟩ := hr
          simp only [hop, value_integer, value_ratnum]
          rw [makeRational_eq (by omega)]
          · push_cast
            field_simp
          · right
            rw [add_comm, IsCoprime.add_mul_right_left_iff]
            exact (isCoprime_mul_unit_left_left hs v v').mpr hcoprime
  | ratnum u u' =>
      obtain ⟨hu', hcoprimeu⟩ := hq
      have hzerou : (u' : ℚ) ≠ 0 := by exact_mod_cast (by omega : u' ≠ 0)
      cases r with
      | integer v =>
          simp only [hop, value_integer, value_ratnum]
          rw [makeRational_eq (by omega)]
          · push_cast
            field_simp
          · right
            rw [← mul_assoc, IsCoprime.add_mul_right_left_iff]
            exact hcoprimeu
      | ratnum v v' =>
          obtain ⟨hv', hcoprimev⟩ := hr
          have hzerov : (v' : ℚ) ≠ 0 := by exact_mod_cast (by omega : v' ≠ 0)
          obtain ⟨a, b, hab, hpos, hu, hv⟩ := intGcd_parts (n := u') (m := v') (inl (by omega))
          simp only [hop, value_ratnum]
          generalize intGcd u' v' = d at *
          subst hu hv
          have ha : 0 < a := (mul_pos_iff_of_pos_left hpos).mp (by omega)
          have hb : 0 < b := (mul_pos_iff_of_pos_left hpos).mp (by omega)
          obtain ⟨hta, htb⟩ := sum_coprime hs hcoprimeu hcoprimev hab
          -- The sum, over the least common multiple of the denominators.
          have hsum : (u : ℚ) / ((d * a : Int) : ℚ) + s * (v / ((d * b : Int) : ℚ)) =
              ((u * b + s * (v * a) : Int) : ℚ) / ((d * (a * b) : Int) : ℚ) := by
            push_cast at hzerou hzerov ⊢
            have hda := mul_ne_zero_iff.mp hzerou
            have hdb := mul_ne_zero_iff.mp hzerov
            field_simp
          rw [hsum]
          by_cases hone : d = 1
          · subst hone
            rw [if_pos rfl, makeRational_eq (by positivity)]
            · simp only [one_mul]
            · right
              simp only [one_mul] at hta htb ⊢
              exact hta.mul_right htb
          · rw [if_neg hone, intQuotient_mul hpos.ne', intQuotient_mul hpos.ne']
            simp only [bind, Except.bind]
            generalize htt : u * b + s * (v * a) = t at *
            split
            · rename_i hzero
              rw [hzero, integer_eq]
              simp
            · rename_i hzero
              obtain ⟨t1, e, hte, hpos2, ht, hd⟩ := intGcd_parts (n := t) (m := d) (inl hzero)
              generalize intGcd t d = d2 at *
              subst ht hd
              have he : 0 < e := (mul_pos_iff_of_pos_left hpos2).mp hpos
              rw [intQuotient_mul hpos2.ne', mul_assoc d2 e b, intQuotient_mul hpos2.ne']
              simp only
              rw [makeRational_eq (by positivity)]
              · push_cast
                field_simp
              · right
                exact hta.of_mul_left_right.mul_right (hte.mul_right htb.of_mul_left_right)

theorem ratAdd_eq (hq : q.Canonical) (hr : r.Canonical) : ratAdd q r = .ok (ofRat (q.value + r.value)) := by
  rw [ratAdd, additionOperator_eq (s := 1) isUnit_one (by simp) hq hr]
  simp

theorem ratSubtract_eq (hq : q.Canonical) (hr : r.Canonical) : ratSubtract q r = .ok (ofRat (q.value - r.value)) := by
  rw [ratSubtract, additionOperator_eq (s := -1) isUnit_one.neg (by intro n m; ring) hq hr]
  simp [sub_eq_add_neg]

theorem ratSucc_eq (hq : q.Canonical) : ratSucc q = ofRat (q.value + 1) := by
  cases q with
  | integer v =>
      rw [ratSucc, integer_eq]
      push_cast
      rfl
  | ratnum v v' =>
      obtain ⟨hv', hcoprime⟩ := hq
      rw [ratSucc, ratnum_eq hv' (by simpa using hcoprime.add_mul_right_left 1), value_ratnum]
      push_cast
      field_simp

theorem ratNegate_eq (hq : q.Canonical) : ratNegate q = ofRat (-q.value) := by
  cases q with
  | integer v =>
      rfl
  | ratnum v v' =>
      rw [ratNegate, ratnum_eq hq.1 hq.2.neg_left, value_ratnum]
      push_cast
      rw [neg_div]

theorem ratSquare_eq (hq : q.Canonical) : ratSquare q = ofRat (q.value ^ 2) := by
  cases q with
  | integer v =>
      rw [ratSquare, integer_eq, pow_two]
      push_cast
      rfl
  | ratnum v v' =>
      obtain ⟨hv', hcoprime⟩ := hq
      rw [ratSquare, ratnum_eq (by nlinarith) ((hcoprime.mul_left hcoprime).mul_right (hcoprime.mul_left hcoprime)),
        value_ratnum, div_pow, pow_two, pow_two]
      push_cast
      rfl

theorem ratMultiply_eq (hq : q.Canonical) (hr : r.Canonical) : ratMultiply q r = .ok (ofRat (q.value * r.value)) := by
  unfold ratMultiply ratBinaryOperator
  cases q with
  | integer u =>
      cases r with
      | integer v =>
          simp only [value_integer]
          rw [integer_eq]
          push_cast
          rfl
      | ratnum v v' =>
          obtain ⟨hv', hcoprime⟩ := hr
          obtain ⟨a, b, hab, hpos, hu, hv⟩ := intGcd_parts (n := u) (m := v') (inr (by omega))
          simp only [value_integer, value_ratnum]
          generalize intGcd u v' = d at *
          subst hu hv
          have hb : 0 < b := (mul_pos_iff_of_pos_left hpos).mp (by omega)
          rw [intQuotient_mul hpos.ne', intQuotient_mul hpos.ne']
          simp only [bind, Except.bind]
          rw [makeRational_eq hb (inr (hab.mul_left hcoprime.of_mul_right_right))]
          push_cast
          field_simp
  | ratnum u u' =>
      obtain ⟨hu', hcoprimeu⟩ := hq
      cases r with
      | integer v =>
          obtain ⟨a, b, hab, hpos, hv, hu⟩ := intGcd_parts (n := v) (m := u') (inr (by omega))
          simp only [value_integer, value_ratnum]
          generalize intGcd v u' = d at *
          subst hu hv
          have hb : 0 < b := (mul_pos_iff_of_pos_left hpos).mp (by omega)
          rw [intQuotient_mul hpos.ne', intQuotient_mul hpos.ne']
          simp only [bind, Except.bind]
          rw [makeRational_eq hb (inr (hcoprimeu.of_mul_right_right.mul_left hab))]
          push_cast
          field_simp
      | ratnum v v' =>
          obtain ⟨hv', hcoprimev⟩ := hr
          obtain ⟨a, b, hab, hpos, hu, hv⟩ := intGcd_parts (n := u) (m := v') (inr (by omega))
          obtain ⟨c, e, hce, hpos2, hv2, hu2⟩ := intGcd_parts (n := v) (m := u') (inr (by omega))
          simp only [value_ratnum]
          generalize intGcd u v' = d1 at *
          generalize intGcd v u' = d2 at *
          subst hu hv hv2 hu2
          have hb : 0 < b := (mul_pos_iff_of_pos_left hpos).mp (by omega)
          have he : 0 < e := (mul_pos_iff_of_pos_left hpos2).mp (by omega)
          simp only [intQuotient_mul hpos.ne', intQuotient_mul hpos2.ne', bind, Except.bind]
          have hae : IsCoprime a e := hcoprimeu.of_mul_left_right.of_mul_right_right
          have hcb : IsCoprime c b := hcoprimev.of_mul_left_right.of_mul_right_right
          rw [makeRational_eq (mul_pos he hb) (inr ((hae.mul_right hab).mul_left (hce.mul_right hcb)))]
          push_cast
          field_simp

theorem ratInvert_eq (hq : q.Canonical) : ratInvert q =
    if q.value = 0 then .error (.divideByZero "/" [.integer 1, q]) else .ok (ofRat q.value⁻¹) := by
  cases q with
  | integer v =>
      simp only [ratInvert, value_integer, Int.cast_eq_zero]
      rcases lt_trichotomy v 0 with hneg | rfl | hpos
      · rw [if_neg (by omega), if_pos hneg, if_neg hneg.ne, makeRational_eq (by omega)]
        · push_cast
          rw [neg_div_neg_eq, one_div]
        · exact inr isCoprime_one_left.neg_left
      · rfl
      · rw [if_pos hpos, if_neg hpos.ne', makeRational_eq hpos (inr isCoprime_one_left)]
        push_cast
        rw [one_div]
  | ratnum v v' =>
      obtain ⟨hv', hcoprime⟩ := hq
      have hzero : (v' : ℚ) ≠ 0 := by exact_mod_cast (by omega : v' ≠ 0)
      have hvalue : (v : ℚ) / v' = 0 ↔ v = 0 := by
        rw [div_eq_zero_iff, or_iff_left hzero, Int.cast_eq_zero]
      simp only [ratInvert, value_ratnum, hvalue]
      rcases lt_trichotomy v 0 with hneg | rfl | hpos
      · rw [if_neg (by omega), if_pos hneg, if_neg hneg.ne, makeRational_eq (by omega)]
        · push_cast
          rw [neg_div_neg_eq, inv_div]
        · exact inr hcoprime.symm.neg_neg
      · rfl
      · rw [if_pos hpos, if_neg hpos.ne', makeRational_eq hpos (inr hcoprime.symm), inv_div]

theorem ratSignCorrection_parts {α : Type} (u : Int) {v : Int} (hv : v ≠ 0) (cont : Int → Int → α) :
    ∃ d a b, ratSignCorrection u v cont = cont (d * a) (d * b) ∧ intGcd (d * a) (d * b) = d ∧ d ≠ 0 ∧ 0 < b ∧
      IsCoprime a b ∧ (u : ℚ) / v = a / b ∧ (∀ w, IsCoprime u w → IsCoprime a w) ∧ ∀ w, IsCoprime v w → IsCoprime b w := by
  obtain ⟨s, hs, hpos, hcorrect⟩ : ∃ s, IsUnit s ∧ 0 < s * v ∧ ratSignCorrection u v cont = cont (s * u) (s * v) := by
    unfold ratSignCorrection
    split
    · exact ⟨-1, isUnit_one.neg, by omega, by simp⟩
    · exact ⟨1, isUnit_one, by omega, by simp⟩
  obtain ⟨a, b, hab, hd, hu, hv⟩ := intGcd_parts (n := s * u) (m := s * v) (inr hpos.ne')
  have hgcd : ∃ d, d = intGcd (s * u) (s * v) := ⟨_, rfl⟩
  obtain ⟨d, hgcd⟩ := hgcd
  rw [← hgcd] at hd hu hv
  rw [hu, hv] at hgcd
  refine ⟨d, a, b, by rw [hcorrect, hu, hv], hgcd.symm, hd.ne', ?_, hab, ?_, ?_, ?_⟩
  · rw [hv] at hpos
    exact (mul_pos_iff_of_pos_left hd).mp hpos
  · have hs' : (s : ℚ) ≠ 0 := by exact_mod_cast hs.ne_zero
    have hd' : (d : ℚ) ≠ 0 := by exact_mod_cast hd.ne'
    calc (u : ℚ) / v = ((s * u : Int) : ℚ) / ((s * v : Int) : ℚ) := by
            push_cast
            rw [mul_div_mul_left _ _ hs']
      _ = a / b := by
            rw [hu, hv]
            push_cast
            rw [mul_div_mul_left _ _ hd']
  · intro w hw
    have : IsCoprime (d * a) w := hu ▸ (isCoprime_mul_unit_left_left hs u w).mpr hw
    exact this.of_mul_left_right
  · intro w hw
    have : IsCoprime (d * b) w := hv ▸ (isCoprime_mul_unit_left_left hs v w).mpr hw
    exact this.of_mul_left_right

theorem ratDivide_eq (hq : q.Canonical) (hr : r.Canonical) : ratDivide q r =
    if r.value = 0 then .error (.divideByZero "/" [q, r]) else .ok (ofRat (q.value / r.value)) := by
  unfold ratDivide ratBinaryOperator
  cases q with
  | integer u =>
      cases r with
      | integer v =>
          simp only [value_integer, Int.cast_eq_zero]
          split
          · rfl
          · rename_i hv
            obtain ⟨d, a, b, hcorrect, hgcd, hd, hb, hab, hvalue, -, -⟩ := ratSignCorrection_parts u hv _
            rw [hcorrect]
            simp only [hgcd, intQuotient_mul hd, bind, Except.bind]
            rw [makeRational_eq hb (inr hab), hvalue]
      | ratnum v v' =>
          obtain ⟨hv', hcoprime⟩ := hr
          have hv : v ≠ 0 := by
            rintro rfl
            have := Int.isUnit_iff.mp (isCoprime_zero_left.mp hcoprime)
            omega
          have hzero : (v' : ℚ) ≠ 0 := by exact_mod_cast (by omega : v' ≠ 0)
          have hvzero : (v : ℚ) ≠ 0 := by exact_mod_cast hv
          rw [if_neg (show ¬(ratnum v v').value = 0 from div_ne_zero hvzero hzero)]
          simp only [value_integer, value_ratnum]
          obtain ⟨d, a, b, hcorrect, hgcd, hd, hb, hab, hvalue, -, hvw⟩ := ratSignCorrection_parts u hv _
          rw [hcorrect]
          simp only [hgcd, intQuotient_mul hd, bind, Except.bind]
          rw [makeRational_eq hb (inr (hab.mul_left (hvw v' hcoprime).symm))]
          have : (u : ℚ) / (v / v') = u / v * v' := by field_simp
          rw [this, hvalue]
          push_cast
          rw [mul_div_right_comm]
  | ratnum u u' =>
      obtain ⟨hu', hcoprimeu⟩ := hq
      cases r with
      | integer v =>
          simp only [value_integer, value_ratnum, Int.cast_eq_zero]
          split
          · rfl
          · rename_i hv
            obtain ⟨d, a, b, hcorrect, hgcd, hd, hb, hab, hvalue, huw, -⟩ := ratSignCorrection_parts u hv _
            rw [hcorrect]
            simp only [hgcd, intQuotient_mul hd, bind, Except.bind]
            rw [makeRational_eq (by positivity) (inr ((huw u' hcoprimeu).mul_right hab))]
            have : (u : ℚ) / u' / v = u / v / u' := by field_simp
            rw [this, hvalue]
            push_cast
            rw [div_div, mul_comm (b : ℚ)]
      | ratnum v v' =>
          obtain ⟨hv', hcoprimev⟩ := hr
          have hv : v ≠ 0 := by
            rintro rfl
            have := Int.isUnit_iff.mp (isCoprime_zero_left.mp hcoprimev)
            omega
          have hzero : (v' : ℚ) ≠ 0 := by exact_mod_cast (by omega : v' ≠ 0)
          have hvzero : (v : ℚ) ≠ 0 := by exact_mod_cast hv
          rw [if_neg (show ¬(ratnum v v').value = 0 from div_ne_zero hvzero hzero)]
          simp only [value_ratnum]
          obtain ⟨a, b, hab, hpos, hu, hv⟩ := intGcd_parts (n := u) (m := v) (inr hv)
          obtain ⟨c, e, hce, hpos2, hv2, hu2⟩ := intGcd_parts (n := v') (m := u') (inr (by omega))
          generalize intGcd u v = d1 at *
          generalize intGcd v' u' = d2 at *
          subst hu hv hv2 hu2
          have hc : 0 < c := (mul_pos_iff_of_pos_left hpos2).mp (by omega)
          have he : 0 < e := (mul_pos_iff_of_pos_left hpos2).mp (by omega)
          have hae : IsCoprime a e := hcoprimeu.of_mul_left_right.of_mul_right_right
          have hcb : IsCoprime c b := (hcoprimev.of_mul_left_right.of_mul_right_right).symm
          have hall : IsCoprime (a * c) (e * b) := (hae.mul_right hab).mul_left (hce.mul_right hcb)
          have hvalue : ((d1 * a : Int) : ℚ) / ((d2 * e : Int) : ℚ) / (((d1 * b : Int) : ℚ) / ((d2 * c : Int) : ℚ)) =
              ((a * c : Int) : ℚ) / ((e * b : Int) : ℚ) := by
            push_cast at hvzero ⊢
            field_simp
          rw [hvalue]
          split
          · -- The sign of the divisor is in the second greatest common divisor.
            have hquotient : ∀ x, intQuotient (d2 * x) (-d2) = .ok (-x) := by
              intro x
              rw [show d2 * x = -d2 * -x by ring]
              exact intQuotient_mul (neg_ne_zero.mpr hpos2.ne') _
            simp only [intQuotient_mul hpos.ne', hquotient, bind, Except.bind]
            rw [show a * -c = -(a * c) by ring, show -e * b = -(e * b) by ring,
              makeRational_eq (by nlinarith) (inr hall.neg_neg)]
            push_cast
            rw [neg_div_neg_eq]
          · have hb : 0 < b := by
              rcases lt_trichotomy b 0 with h | rfl | h
              · nlinarith
              · simp at hvzero
              · exact h
            simp only [intQuotient_mul hpos.ne', intQuotient_mul hpos2.ne', bind, Except.bind]
            rw [makeRational_eq (mul_pos he hb) (inr hall)]

end

/-! ## Powers -/

theorem exptLoop_eq {M α : Type} [CommMonoid M] {mul : α → α → Result α} {f : M → α}
    (hmul : ∀ x y, mul (f x) (f y) = .ok (f (x * y))) (x a : M) {e : Int} (h : 2 ≤ e) :
    exptLoop mul (f x) e (f a) h = .ok (f (a * x ^ e.toNat)) := by
  induction hn : e.toNat using Nat.strong_induction_on generalizing x a e with
  | _ n ih =>
    have hdiv : e.tdiv 2 = e / 2 := Int.tdiv_eq_ediv_of_nonneg (by omega)
    have hmod : e.tmod 2 = e % 2 := Int.tmod_eq_emod_of_nonneg (by omega)
    -- The answer of the next turn.
    have hstep : ∃ a', (if e.tmod 2 = 0 then .ok (f a) else mul (f a) (f x)) = (.ok (f a') : Result α) ∧
        a' * (x * x) ^ (e.tdiv 2).toNat = a * x ^ n := by
      rw [hdiv]
      split
      · refine ⟨a, rfl, ?_⟩
        rw [← pow_two, ← pow_mul, show 2 * (e / 2).toNat = n by omega]
      · refine ⟨a * x, hmul a x, ?_⟩
        rw [← pow_two, ← pow_mul, mul_assoc, ← pow_succ', show 2 * (e / 2).toNat + 1 = n by omega]
    obtain ⟨a', hanswer, hpower⟩ := hstep
    rw [exptLoop, hmul x x, hanswer]
    simp only [bind, Except.bind]
    split
    · rename_i hone
      rw [hmul]
      rw [hone, Int.toNat_one, pow_one] at hpower
      rw [hpower]
    · rw [ih _ (by omega) (x * x) a' (by omega) rfl, hpower]

theorem intExpt_eq (b e : Int) : intExpt b e = if 0 ≤ e then .ok (b ^ e.toNat) else .error (.badRange e "expt") := by
  unfold intExpt
  split
  · rename_i hpos
    rw [if_pos hpos.le]
    split
    · rename_i hone
      rcases hone with hone | rfl | rfl
      · rw [← hone, Int.toNat_one, pow_one]
      · rw [zero_pow (by omega)]
      · rw [one_pow]
    · split
      · rename_i htwo
        rw [← htwo, one_mul]
      · have := @exptLoop_eq Int Int _ (fun n m => .ok (n * m)) id (fun _ _ => rfl) b 1 e (by omega)
        rw [one_mul] at this
        exact this
  · split
    · rename_i hzero
      rw [if_pos (by omega), hzero, Int.toNat_zero, pow_zero]
    · rw [if_neg (by omega)]

theorem exactMethod_eq {b : ExactRational} (hb : b.Canonical) {e : Int} (h : 0 < e) :
    exactMethod b e h = .ok (ofRat (b.value ^ e.toNat)) := by
  unfold exactMethod
  split
  · rename_i hone
    rw [← hone, Int.toNat_one, pow_one, ofRat_value hb]
  · have hmul : ∀ x y, ratMultiply (ofRat x) (ofRat y) = .ok (ofRat (x * y)) := by
      intro x y
      rw [ratMultiply_eq (canonical_ofRat x) (canonical_ofRat y), value_ofRat, value_ofRat]
    have hrun := exptLoop_eq hmul b.value 1 (e := e) (by omega)
    rw [ofRat_value hb, one_mul] at hrun
    exact hrun

theorem invert_power (x : ℚ) {e : Int} (he : e < 0) : ratInvert (ofRat (x ^ (-e).toNat)) =
    if x = 0 then .error (.divideByZero "/" [.integer 1, .integer 0]) else .ok (ofRat (x ^ e)) := by
  rw [ratInvert_eq (canonical_ofRat _), value_ofRat]
  by_cases hx : x = 0
  · rw [hx, zero_pow (by omega), if_pos rfl]
    rfl
  · rw [if_neg hx, if_neg (pow_ne_zero _ hx)]
    have hcast : e = -((-e).toNat : Int) := by omega
    nth_rewrite 2 [hcast]
    rw [zpow_neg, zpow_natCast]

theorem ratExpt_eq {b : ExactRational} (hb : b.Canonical) (e : Int) : ratExpt b e =
    if b.value = 0 ∧ e < 0 then .error (.divideByZero "/" [.integer 1, .integer 0])
    else .ok (ofRat (b.value ^ e)) := by
  by_cases he : e < 0
  · have hif : ∀ x : Result ExactRational, (if b.value = 0 ∧ e < 0 then x else .ok (ofRat (b.value ^ e))) =
        if b.value = 0 then x else .ok (ofRat (b.value ^ e)) := by
      intro x
      simp only [he, and_true]
    rw [hif, ← invert_power _ he]
    cases b with
    | integer n =>
        simp only [ratExpt]
        rw [if_pos he, intExpt_eq, if_pos (by omega), value_integer, ← Int.cast_pow]
        rfl
    | ratnum n d =>
        simp only [ratExpt]
        rw [dif_pos he, exactMethod_eq hb]
        rfl
  · have hpower : b.value ^ e = b.value ^ e.toNat := by
      rw [← zpow_natCast, Int.toNat_of_nonneg (by omega)]
    rw [if_neg (not_and_of_not_right _ he), hpower]
    cases b with
    | integer n =>
        simp only [ratExpt]
        rw [if_neg he, intExpt_eq, if_pos (by omega), value_integer, ← Int.cast_pow]
        rfl
    | ratnum n d =>
        simp only [ratExpt]
        rw [dif_neg he]
        split
        · exact exactMethod_eq hb _
        · rw [show e = 0 by omega, Int.toNat_zero, pow_zero, integer_eq, Int.cast_one]

theorem ratEqual_iff {q r : ExactRational} (hq : q.Canonical) (hr : r.Canonical) :
    ratEqual q r = true ↔ q.value = r.value := by
  have hext : q = r ↔ q.value = r.value := ⟨fun h => h ▸ rfl, hq.ext hr⟩
  rw [← hext]
  cases q <;> cases r <;> simp [ratEqual]

theorem ratLess_iff {q r : ExactRational} (hq : q.Canonical) (hr : r.Canonical) :
    ratLess q r = true ↔ q.value < r.value := by
  cases q with
  | integer u =>
      cases r with
      | integer v => simp [ratLess]
      | ratnum v v' =>
          have hpos : (0 : ℚ) < v' := by exact_mod_cast (by have := hr.1; omega : 0 < v')
          rw [value_integer, value_ratnum, lt_div_iff₀ hpos]
          simp only [ratLess, decide_eq_true_eq]
          exact_mod_cast Iff.rfl
  | ratnum u u' =>
      have hposu : (0 : ℚ) < u' := by exact_mod_cast (by have := hq.1; omega : 0 < u')
      cases r with
      | integer v =>
          rw [value_integer, value_ratnum, div_lt_iff₀ hposu]
          simp only [ratLess, decide_eq_true_eq]
          exact_mod_cast Iff.rfl
      | ratnum v v' =>
          have hposv : (0 : ℚ) < v' := by exact_mod_cast (by have := hr.1; omega : 0 < v')
          rw [value_ratnum, value_ratnum, div_lt_div_iff₀ hposu hposv]
          simp only [ratLess, decide_eq_true_eq]
          exact_mod_cast Iff.rfl

/-! ## The operations together -/

/-- A number in canonical form is returned, and it is the one meant. -/
def Returns (result : Result ExactRational) (x : ℚ) : Prop := ∃ q : ExactRational, result = .ok q ∧ q.Canonical ∧ q.value = x

def SignalsDivideByZero (result : Result ExactRational) : Prop :=
  ∃ operator operands, result = .error (.divideByZero operator operands)

theorem returns_ofRat (x : ℚ) : Returns (.ok (ofRat x)) x := ⟨ofRat x, rfl, canonical_ofRat x, value_ofRat x⟩

theorem returns_unless {p : Prop} [Decidable p] {result : Result ExactRational} {operator : String}
    {operands : List ExactRational} {x : ℚ}
    (h : result = if p then .error (.divideByZero operator operands) else .ok (ofRat x)) :
    (¬p → Returns result x) ∧ (SignalsDivideByZero result ↔ p) := by
  rw [h]
  by_cases hp : p
  · rw [if_pos hp]
    exact ⟨fun hnot => absurd hp hnot, iff_of_true ⟨operator, operands, rfl⟩ hp⟩
  · rw [if_neg hp]
    refine ⟨fun _ => returns_ofRat x, iff_of_false ?_ hp⟩
    intro ⟨operator', operands', herror⟩
    cases herror

end MitScheme.Arith
