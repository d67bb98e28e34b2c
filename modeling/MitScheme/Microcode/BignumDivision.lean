import MitScheme.Microcode.IntegerProof

/-!
# The three entry points of division

`bignum_divide`, `bignum_quotient` and `bignum_remainder` each repeat the case analysis on the
lengths and the leading digits of their operands. They agree: a quotient or a remainder that one
of them computes alone is the one `bignum_divide` computes with the other.
-/

namespace MitScheme

open Bignum

variable {w : Word}

/-- What a division of `n` by `d` returns: the quotient `q` truncates towards zero, so the
remainder `r` has the sign of `n`. -/
structure Divided (w : Word) (n d q r : Bignum) : Prop where
  quotient_wellFormed : q.WellFormed w
  remainder_wellFormed : r.WellFormed w
  equation : n.toInt w = q.toInt w * d.toInt w + r.toInt w
  remainder_lt : (r.toInt w).natAbs < (d.toInt w).natAbs
  sign : r.toInt w = 0 ∨ (r.toInt w).sign = (n.toInt w).sign

theorem divided_ofInt {a b : Int} (hb : b ≠ 0) :
    Divided w (Bignum.ofInt w a) (Bignum.ofInt w b) (Bignum.ofInt w (a.tdiv b))
      (Bignum.ofInt w (a.tmod b)) := by
  refine ⟨wellFormed_ofInt _, wellFormed_ofInt _, ?_, ?_, ?_⟩
  · simp only [toInt_ofInt]
    rw [Int.mul_comm]
    exact (Int.mul_tdiv_add_tmod a b).symm
  · simp only [toInt_ofInt, Int.natAbs_tmod]
    exact Nat.mod_lt _ (Int.natAbs_pos.mpr hb)
  · simp only [toInt_ofInt]
    rw [Int.sign_tmod]
    by_cases hdvd : b ∣ a
    · exact Or.inl (Int.tmod_eq_zero_of_dvd hdvd)
    · exact Or.inr (if_neg hdvd)

/-- **Bignum division.** On every path the quotient and the remainder are those of truncating
division, and the three entry points return the same ones. -/
theorem bignum_division {n d : Bignum} (hn : n.WellFormed w) (hd : d.WellFormed w)
    (h0 : d.zeroP = false) :
    ∃ q r, bignumDivide w n d = some (some (q, r)) ∧ bignumQuotient w n d = some (some q)
      ∧ bignumRemainder w n d = some (some r) ∧ Divided w n d q r := by
  have hz : d.toInt w ≠ 0 := by
    rw [hd.eq_ofInt, zeroP_ofInt] at h0
    exact of_decide_eq_false h0
  refine ⟨Bignum.ofInt w ((n.toInt w).tdiv (d.toInt w)), Bignum.ofInt w ((n.toInt w).tmod (d.toInt w)),
    ?_⟩
  have hdivide := bignumDivide_ofInt (w := w) (n.toInt w) (d.toInt w)
  have hquotient := bignumQuotient_ofInt (w := w) (n.toInt w) (d.toInt w)
  have hremainder := bignumRemainder_ofInt (w := w) (n.toInt w) (d.toInt w)
  have hdivided := divided_ofInt (w := w) (a := n.toInt w) hz
  rw [← hn.eq_ofInt, ← hd.eq_ofInt, if_neg hz] at hdivide hquotient hremainder
  rw [← hn.eq_ofInt, ← hd.eq_ofInt] at hdivided
  exact ⟨hdivide, hquotient, hremainder, hdivided⟩

theorem bignum_division_normalized :
    ∃ q r, bignumDivide w64 ⟨true, [5, 0, 7]⟩ ⟨false, [3, 2]⟩ = some (some (q, r))
      ∧ bignumQuotient w64 ⟨true, [5, 0, 7]⟩ ⟨false, [3, 2]⟩ = some (some q)
      ∧ bignumRemainder w64 ⟨true, [5, 0, 7]⟩ ⟨false, [3, 2]⟩ = some (some r)
      ∧ Divided w64 ⟨true, [5, 0, 7]⟩ ⟨false, [3, 2]⟩ q r :=
  bignum_division ⟨by decide, by decide, by decide⟩ ⟨by decide, by decide, by decide⟩ rfl

end MitScheme
