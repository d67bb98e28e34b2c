import MitScheme.Microcode.BignumDivide
import MitScheme.Microcode.BignumProof

/-!
# Division is exact

Bottom up: two half-digit steps divide two digits by one; that digit division
drives both the single-digit loops and the quotient guess of the long division;
and the long division is one window after another, each leaving a remainder below
the denominator.

The only facts about the guess are `DigitList.div_lt_of_guess_gt` (a guess that is
lowered was too large) and `DigitList.guess_le_div_add_one` (the final guess is at
most one too large). For half digits the leading part of the denominator is all of
it, so the guess is exact there and the add-back branch is never taken.
-/

namespace MitScheme

open DigitList Bignum BignumComparison
open Nat (div_add_mod' div_lt_iff_lt_mul mod_add_div mod_lt shiftLeft_eq shiftRight_eq_div_pow two_pow_pos)
open Option (bind_eq_bind bind_some map_some pure_def)

variable {w : Word}

/-! ## Two digits by one -/

theorem bddAdjust_spec {v1 v2 U : Nat} (hv1 : v1 < w.radixRoot) (hv2 : v2 < w.radixRoot)
    (hv : 0 < v1) :
    ∀ {g c : Nat}, c + g * (v1 * w.radixRoot) = U → g < w.radixRoot →
      U / (v1 * w.radixRoot + v2) ≤ g →
      bddAdjust w v1 v2 g c = some (U / (v1 * w.radixRoot + v2))
  | 0, c, _, _, hq => by rw [bddAdjust, Nat.le_zero.mp hq]
  | g + 1, c, hc, hg, hq => by
      have hV : 0 < v1 * w.radixRoot + v2 :=
        Nat.add_pos_left (Nat.mul_pos hv w.radixRoot_pos) _
      have hR := w.radix_eq
      have hprod := mul_half_le hg hv2
      rw [bddAdjust, w.nat_eq_of_lt (by omega)]
      dsimp only [bind_eq_bind, bind_some]
      split
      · -- the guess is too large
        have hlt : U / (v1 * w.radixRoot + v2) < g + 1 := by
          refine div_lt_of_guess_gt (T := U) (S := 1) (D := v1 * w.radixRoot + v2)
            (by omega) (by omega) ?_
          rw [Nat.mul_add]
          omega
        have hshift : v1 <<< w.half = v1 * w.radixRoot := shiftLeft_eq v1 w.half
        have hle : v1 * w.radixRoot ≤ w.radix := by
          rw [hR]
          exact Nat.mul_le_mul_right _ hv1.le
        have hc' : c + v1 * w.radixRoot + g * (v1 * w.radixRoot) = U := by
          rw [← hc]; ring
        rw [hshift, w.nat_eq_of_lt (by omega)]
        dsimp only [bind_some]
        split
        · -- the comparand has left the radix, and the product cannot follow it
          have hgv := mul_half_le (show g < w.radixRoot by omega) hv2
          have hge : g ≤ U / (v1 * w.radixRoot + v2) := by
            rw [Nat.le_div_iff_mul_le hV, Nat.mul_add]
            omega
          rw [show g = U / (v1 * w.radixRoot + v2) by omega]
        · exact bddAdjust_spec hv1 hv2 hv hc' (by omega) (by omega)
      · have hge : g + 1 ≤ U / (v1 * w.radixRoot + v2) := by
          rw [Nat.le_div_iff_mul_le hV, Nat.mul_add]
          omega
        rw [show g + 1 = U / (v1 * w.radixRoot + v2) by omega]

theorem radixRoot_le_radix (w : Word) : w.radixRoot ≤ w.radix := by
  rw [w.radix_eq]
  exact Nat.le_mul_of_pos_left _ w.radixRoot_pos

theorem long_sub_half {a b : Nat} (ha : a < w.radixRoot) (hb : b < w.radixRoot) :
    w.long ((a : Int) - b) = some ((a : Int) - b) := by
  have hle := radixRoot_le_radix w
  have hlimit := w.longLimit_eq
  exact w.long_eq ⟨by omega, by omega⟩

theorem bddsMulsub_spec {vn un guess carry : Nat} (hv : vn < w.radixRoot)
    (hu : un < w.radixRoot) (hg : guess < w.radixRoot) (hc : carry < w.radixRoot) :
    ∃ d out, bddsMulsub w vn un guess carry = some (d, out) ∧ d < w.radixRoot
      ∧ out < w.radixRoot ∧ d + (vn * guess + carry) = un + w.radixRoot * out := by
  have hprod := mul_half_le hv hg
  have hR := w.radix_eq
  unfold bddsMulsub
  rw [w.nat_eq_of_lt (by omega)]
  simp only [bind_eq_bind, bind_some, Word.hdLow_eq, Word.hdHigh_eq]
  have hmod := w.mod_radixRoot_lt (vn * guess + carry)
  have heq := mod_add_div (vn * guess + carry) w.radixRoot
  have hhigh : (vn * guess + carry) / w.radixRoot < w.radixRoot := w.div_radixRoot_lt (by omega)
  have hle := radixRoot_le_radix w
  rw [long_sub_half hu hmod]
  dsimp only [bind_some]
  have key : ∀ d out : Nat, d < w.radixRoot →
      d + (vn * guess + carry) = un + w.radixRoot * out → out < w.radixRoot := by
    intro d out hd h
    refine Nat.lt_of_mul_lt_mul_left (a := w.radixRoot) ?_
    omega
  split
  · have hd : ((un : Int) - ((vn * guess + carry) % w.radixRoot : Nat) + w.radixRoot).toNat
        < w.radixRoot := by omega
    have hval : ((un : Int) - ((vn * guess + carry) % w.radixRoot : Nat)
        + w.radixRoot).toNat + (vn * guess + carry)
        = un + w.radixRoot * ((vn * guess + carry) / w.radixRoot + 1) := by
      rw [Nat.mul_add]
      omega
    rw [w.nat_eq_of_lt (by omega)]
    exact ⟨_, _, rfl, hd, key _ _ hd hval, hval⟩
  · have hd : ((un : Int) - ((vn * guess + carry) % w.radixRoot : Nat)).toNat
        < w.radixRoot := by omega
    have hval : ((un : Int) - ((vn * guess + carry) % w.radixRoot : Nat)).toNat
        + (vn * guess + carry)
        = un + w.radixRoot * ((vn * guess + carry) / w.radixRoot) := by omega
    exact ⟨_, _, rfl, hd, key _ _ hd hval, hval⟩

theorem bignumDigitDivideSubtract_spec {v1 v2 u0 u1 u2 g : Nat} (hv1 : v1 < w.radixRoot)
    (hv2 : v2 < w.radixRoot) (hu1 : u1 < w.radixRoot) (hu2 : u2 < w.radixRoot)
    (hg : g < w.radixRoot)
    (hle : g * (v1 * w.radixRoot + v2) ≤ (u0 * w.radixRoot + u1) * w.radixRoot + u2)
    (hlt : (u0 * w.radixRoot + u1) * w.radixRoot + u2
      < g * (v1 * w.radixRoot + v2) + (v1 * w.radixRoot + v2)) :
    ∃ u0' u1' u2', bignumDigitDivideSubtract w v1 v2 g u0 u1 u2 = some (g, u0', u1', u2')
      ∧ u1' < w.radixRoot ∧ u2' < w.radixRoot
      ∧ g * (v1 * w.radixRoot + v2) + (u1' * w.radixRoot + u2')
        = (u0 * w.radixRoot + u1) * w.radixRoot + u2 := by
  obtain ⟨d2, c2, h2, hd2, hc2, he2⟩ := bddsMulsub_spec hv2 hu2 hg w.radixRoot_pos
  obtain ⟨d1, c1, h1, hd1, hc1, he1⟩ := bddsMulsub_spec hv1 hu1 hg hc2
  -- the two columns together, the second one place up
  have htotal : d1 * w.radixRoot + d2 + g * (v1 * w.radixRoot + v2)
      + u0 * (w.radixRoot * w.radixRoot)
      = (u0 * w.radixRoot + u1) * w.radixRoot + u2
        + c1 * (w.radixRoot * w.radixRoot) := by
    nlinarith
  have hdd : d1 * w.radixRoot + d2 < w.radixRoot * w.radixRoot := by nlinarith
  have hV : v1 * w.radixRoot + v2 < w.radixRoot * w.radixRoot := by nlinarith
  have hcu : c1 = u0 := by
    rcases lt_trichotomy c1 u0 with h | h | h
    · have : (c1 + 1) * (w.radixRoot * w.radixRoot) ≤ u0 * (w.radixRoot * w.radixRoot) :=
        Nat.mul_le_mul_right _ h
      rw [Nat.add_mul] at this
      omega
    · exact h
    · have : (u0 + 1) * (w.radixRoot * w.radixRoot) ≤ c1 * (w.radixRoot * w.radixRoot) :=
        Nat.mul_le_mul_right _ h
      rw [Nat.add_mul] at this
      omega
  subst hcu
  have hval : g * (v1 * w.radixRoot + v2) + (d1 * w.radixRoot + d2)
      = (c1 * w.radixRoot + u1) * w.radixRoot + u2 := by omega
  unfold bignumDigitDivideSubtract
  rw [h2]
  dsimp only [bind_eq_bind, bind_some]
  rw [h1]
  dsimp only [bind_some]
  split
  · exact ⟨_, _, _, rfl, hd1, hd2, hval⟩
  · rw [long_sub_half hc1 hc1]
    dsimp only [bind_some]
    rw [if_pos (by omega)]
    exact ⟨_, _, _, rfl, hd1, hd2, hval⟩

theorem bddGuess_eq {v1 v2 u0 u1 u2 : Nat} (hv1 : v1 < w.radixRoot)
    (hv2 : v2 < w.radixRoot) (hv : 0 < v1) (hu1 : u1 < w.radixRoot) (hu2 : u2 < w.radixRoot)
    (hlt : u0 * w.radixRoot + u1 < v1 * w.radixRoot + v2) :
    bddGuess w v1 v2 u0 u1 u2
      = some (((u0 * w.radixRoot + u1) * w.radixRoot + u2) / (v1 * w.radixRoot + v2)) := by
  have hR := w.radix_eq
  unfold bddGuess
  split
  · have hu0 : u0 < v1 := by
      by_contra hge
      have : (v1 + 1) * w.radixRoot ≤ u0 * w.radixRoot :=
        Nat.mul_le_mul_right _ (by omega)
      rw [Nat.add_mul] at this
      omega
    have hA : u0 * w.radixRoot + u1 < v1 * w.radixRoot := by
      have : (u0 + 1) * w.radixRoot ≤ v1 * w.radixRoot := Nat.mul_le_mul_right _ hu0
      rw [Nat.add_mul] at this
      omega
    have hv1R : v1 * w.radixRoot ≤ w.radix := by
      rw [hR]
      exact Nat.mul_le_mul_right _ hv1.le
    rw [w.hdCons_eq hu1, w.nat_eq_of_lt (by omega)]
    generalize u0 * w.radixRoot + u1 = A at hA ⊢
    dsimp only [bind_eq_bind, bind_some]
    have hmod := mod_lt A hv
    have heq := div_add_mod' A v1
    rw [w.hdCons_eq hu2, w.nat_eq_of_lt (by nlinarith)]
    refine bddAdjust_spec hv1 hv2 hv ?_ ?_ ?_
    · conv_rhs => rw [← heq]
      ring
    · rw [div_lt_iff_lt_mul hv, Nat.mul_comm]
      exact hA
    · have := div_lt_of_guess_gt (g := A / v1 + 1) (D := v1) (T := A) (S := w.radixRoot)
        (U := A * w.radixRoot + u2) (V := v1 * w.radixRoot + v2) (by omega)
        (by rw [Nat.add_mul]; omega) (by rw [Nat.add_mul]; omega)
      omega
  · rename_i heq
    obtain rfl : u0 = v1 := not_not.mp heq
    rw [w.hdCons_eq hu2, w.nat_eq_of_lt (by nlinarith)]
    obtain ⟨k, hk⟩ : ∃ k, w.radixRoot = k + 1 := ⟨w.radixRoot - 1, by
      omega⟩
    refine bddAdjust_spec hv1 hv2 hv ?_ (by omega) ?_
    · rw [hk]
      simp only [Nat.add_sub_cancel]
      ring
    · refine Nat.le_sub_one_of_lt ?_
      rw [div_lt_iff_lt_mul (by omega)]
      nlinarith

theorem bddStep_spec {v1 v2 u0 u1 u2 : Nat} (hv1 : v1 < w.radixRoot)
    (hv2 : v2 < w.radixRoot) (hv : 0 < v1) (hu1 : u1 < w.radixRoot) (hu2 : u2 < w.radixRoot)
    (hlt : u0 * w.radixRoot + u1 < v1 * w.radixRoot + v2) :
    ∃ u0' u1' u2', bddStep w v1 v2 u0 u1 u2
        = some (((u0 * w.radixRoot + u1) * w.radixRoot + u2) / (v1 * w.radixRoot + v2),
            u0', u1', u2')
      ∧ u1' < w.radixRoot ∧ u2' < w.radixRoot
      ∧ u1' * w.radixRoot + u2'
        = ((u0 * w.radixRoot + u1) * w.radixRoot + u2) % (v1 * w.radixRoot + v2)
      ∧ ((u0 * w.radixRoot + u1) * w.radixRoot + u2) / (v1 * w.radixRoot + v2)
        < w.radixRoot := by
  have hV : 0 < v1 * w.radixRoot + v2 :=
    Nat.add_pos_left (Nat.mul_pos hv w.radixRoot_pos) _
  generalize hU : (u0 * w.radixRoot + u1) * w.radixRoot + u2 = U
  have hqlt : U / (v1 * w.radixRoot + v2) < w.radixRoot := by
    rw [div_lt_iff_lt_mul hV]
    nlinarith
  have hguess := bddGuess_eq hv1 hv2 hv hu1 hu2 hlt
  rw [hU] at hguess
  have hdm := div_add_mod' U (v1 * w.radixRoot + v2)
  have hml := mod_lt U hV
  obtain ⟨u0', u1', u2', hsub, h1, h2, hval⟩ :=
    @bignumDigitDivideSubtract_spec w _ _ u0 _ _ _ hv1 hv2 hu1 hu2 hqlt
      (by omega) (by omega)
  refine ⟨u0', u1', u2', ?_, h1, h2, by omega, hqlt⟩
  unfold bddStep
  rw [hguess]
  exact hsub

/-- **Two digits divided by one normalised digit.** -/
theorem bignumDigitDivide_eq {uh ul v : Nat} (hv : v < w.radix) (hnorm : w.radix ≤ 2 * v)
    (huh : uh < v) (hul : ul < w.radix) :
    bignumDigitDivide w uh ul v
      = some ((uh * w.radix + ul) / v, (uh * w.radix + ul) % v) := by
  have hR := w.radix_eq
  unfold bignumDigitDivide
  split
  · rename_i h
    rw [h.1, Nat.zero_mul, Nat.zero_add, Nat.div_eq_of_lt h.2, Nat.mod_eq_of_lt h.2]
  split
  · rename_i h
    rw [h.1, h.2, Nat.zero_mul, Nat.zero_add, Nat.div_self (by omega), Nat.mod_self]
  simp only [Word.hdLow_eq, Word.hdHigh_eq]
  have hvv : v / w.radixRoot * w.radixRoot + v % w.radixRoot = v := div_add_mod' _ _
  have huu : uh / w.radixRoot * w.radixRoot + uh % w.radixRoot = uh := div_add_mod' _ _
  have hll : ul / w.radixRoot * w.radixRoot + ul % w.radixRoot = ul := div_add_mod' _ _
  have hv1 : 0 < v / w.radixRoot := by
    refine Nat.div_pos ?_ w.radixRoot_pos
    nlinarith
  obtain ⟨a0, a1, a2, hs1, ha1, ha2, ham, haq⟩ := @bddStep_spec w _ _
    (uh / w.radixRoot) _ _ (w.div_radixRoot_lt hv) (w.mod_radixRoot_lt v) hv1
    (w.mod_radixRoot_lt uh) (w.div_radixRoot_lt hul) (by rw [huu, hvv]; exact huh)
  rw [huu, hvv] at hs1 ham haq
  obtain ⟨b0, b1, b2, hs2, hb1, hb2, hbm, hbq⟩ := @bddStep_spec w _ _
    a1 _ _ (w.div_radixRoot_lt hv) (w.mod_radixRoot_lt v) hv1 ha2
    (w.mod_radixRoot_lt ul) (by rw [ham, hvv]; exact mod_lt _ (by omega))
  rw [ham, hvv] at hs2 hbm hbq
  rw [hs1]
  dsimp only [bind_eq_bind, bind_some]
  rw [hs2]
  dsimp only [bind_some]
  rw [w.hdCons_eq hbq, w.hdCons_eq hb2, hbm]
  -- the second step divides what the first one left, with the last half digit appended
  have hU : uh * w.radix + ul
      = (uh * w.radixRoot + ul / w.radixRoot) * w.radixRoot + ul % w.radixRoot := by
    rw [hR, Nat.add_mul, Nat.mul_assoc, Nat.add_assoc, hll]
  rw [hU]
  generalize uh * w.radixRoot + ul / w.radixRoot = A
  generalize ul % w.radixRoot = e
  have hA := div_add_mod' A v
  have hsplit : A * w.radixRoot + e
      = A / v * w.radixRoot * v + (A % v * w.radixRoot + e) := by
    conv_lhs => rw [← hA]
    ring
  rw [hsplit, Nat.add_comm (A / v * w.radixRoot * v), Nat.add_mul_div_right _ _ (by omega),
    Nat.add_mul_mod_self_right, Nat.add_comm (A / v * w.radixRoot)]

/-! ## A denominator of one digit -/

variable {d v r s : Nat} {ds : List Nat}

theorem bring_down {b x : Nat} (hv : 0 < v) :
    (d + b * x) / v = (x % v * b + d) / v + b * (x / v)
      ∧ (d + b * x) % v = (x % v * b + d) % v := by
  have hsplit : d + b * x = (x % v * b + d) + b * (x / v) * v := by
    conv_lhs => rw [← div_add_mod' x v]
    ring
  rw [hsplit, Nat.add_mul_div_right _ _ hv, Nat.add_mul_mod_self_right]
  exact ⟨rfl, rfl⟩

theorem half_bring_down {e : Nat} (hr : r < v) (he : e < w.radixRoot) (hv : v < w.radixRoot) :
    w.hdCons r e = r * w.radixRoot + e ∧ w.hdCons r e < w.radix
      ∧ (r * w.radixRoot + e) / v < w.radixRoot := by
  refine ⟨w.hdCons_eq he, w.hdCons_lt (by omega) he, ?_⟩
  rw [div_lt_iff_lt_mul (by omega)]
  nlinarith

theorem two_half_steps (hv : 0 < v) :
    (r * w.radixRoot + d / w.radixRoot) / v * w.radixRoot
        + ((r * w.radixRoot + d / w.radixRoot) % v * w.radixRoot + d % w.radixRoot) / v
      = (r * w.radix + d) / v
    ∧ ((r * w.radixRoot + d / w.radixRoot) % v * w.radixRoot + d % w.radixRoot) % v
      = (r * w.radix + d) % v := by
  have hU : r * w.radix + d
      = d % w.radixRoot + w.radixRoot * (r * w.radixRoot + d / w.radixRoot) := by
    conv_lhs => rw [w.radix_eq, ← mod_add_div d w.radixRoot]
    ring
  obtain ⟨hq, hr⟩ := bring_down (b := w.radixRoot) (d := d % w.radixRoot)
    (x := r * w.radixRoot + d / w.radixRoot) hv
  rw [hU, hq, hr]
  exact ⟨by ring, rfl⟩

theorem scaleDownDigits_spec {v : Nat} (hv : 0 < v) (hvr : v < w.radixRoot) :
    ∀ {ds : List Nat}, Below w.radix ds →
      ∃ qs, scaleDownDigits w v ds = some (qs, w.value ds % v) ∧ Below w.radix qs
        ∧ qs.length = ds.length ∧ w.value qs = w.value ds / v
  | [], _ => ⟨[], by simp [scaleDownDigits], below_nil, rfl, by simp⟩
  | d :: ds, hds => by
      rw [below_cons] at hds
      obtain ⟨qs, hrec, hqs, hlen, hval⟩ := scaleDownDigits_spec hv hvr hds.2
      obtain ⟨hc1, hl1, hq1⟩ := half_bring_down (mod_lt (w.value ds) hv)
        (w.div_radixRoot_lt hds.1) hvr
      obtain ⟨hc2, hl2, hq2⟩ := half_bring_down
        (mod_lt (w.value ds % v * w.radixRoot + d / w.radixRoot) hv)
        (w.mod_radixRoot_lt d) hvr
      obtain ⟨hq, hr⟩ := two_half_steps (w := w) (r := w.value ds % v) (d := d) hv
      obtain ⟨hbq, hbr⟩ := bring_down (b := w.radix) (d := d) (x := w.value ds) hv
      rw [scaleDownDigits, hrec]
      simp only [Word.hdLow_eq, Word.hdHigh_eq, bind_eq_bind, bind_some]
      rw [w.nat_eq_of_lt (by omega)]
      simp only [bind_some]
      rw [hc1, w.nat_eq_of_lt (by omega)]
      simp only [bind_some]
      rw [hc2, hr, ← hbr]
      refine ⟨_, rfl, below_cons.mpr ⟨w.hdCons_lt hq1 hq2, hqs⟩, by simp [hlen], ?_⟩
      rw [value_cons, hval, w.hdCons_eq hq2, hq, ← hbq, value_cons]

theorem remainderDigits_eq (v : Nat) (ds : List Nat) :
    remainderDigits w v ds = (scaleDownDigits w v ds).map Prod.snd := by
  induction ds with
  | nil => rfl
  | cons d ds ih =>
      rw [remainderDigits, scaleDownDigits, ih]
      cases scaleDownDigits w v ds with
      | none => rfl
      | some result =>
          simp only [map_some, bind_eq_bind, bind_some, Option.map_bind, Function.comp_def]

theorem divideDigits_spec {v : Nat} (hv : v < w.radix) (hnorm : w.radix ≤ 2 * v) :
    ∀ {ds : List Nat}, Below w.radix ds →
      ∃ qs, divideDigits w v ds = some (qs, w.value ds % v) ∧ Below w.radix qs
        ∧ qs.length = ds.length ∧ w.value qs = w.value ds / v
  | [], _ => ⟨[], by simp [divideDigits], below_nil, rfl, by simp⟩
  | d :: ds, hds => by
      rw [below_cons] at hds
      have hpos : 0 < v := by omega
      have hmod := mod_lt (w.value ds) hpos
      obtain ⟨qs, hrec, hqs, hlen, hval⟩ := divideDigits_spec hv hnorm hds.2
      obtain ⟨hbq, hbr⟩ := bring_down (b := w.radix) (d := d) (x := w.value ds) hpos
      have hq : (w.value ds % v * w.radix + d) / v < w.radix := by
        rw [div_lt_iff_lt_mul hpos]
        nlinarith
      rw [divideDigits, hrec]
      dsimp only [bind_eq_bind, bind_some]
      rw [bignumDigitDivide_eq hv hnorm hmod hds.1]
      rw [← hbr]
      refine ⟨_, rfl, below_cons.mpr ⟨hq, hqs⟩, by simp [hlen], ?_⟩
      rw [value_cons, hval, ← hbq, value_cons]

theorem digitToBignum_eq (h : d < w.radix) (negative : Bool) :
    digitToBignum d negative = Bignum.ofSign w negative d := by
  unfold digitToBignum
  split
  · rename_i h0
    simp [h0, Bignum.ofSign]
  · rename_i h0
    rw [ofSign_eq_of_pos (Nat.pos_of_ne_zero h0), Nat.digits_of_lt w.radix d h0 h]

theorem digits_ne_nil {x : Nat} (h : 0 < x) : Nat.digits w.radix x ≠ [] :=
  Nat.digits_ne_nil_iff_ne_zero.mpr (by omega)

theorem ne_nil_of_length_eq {l₁ l₂ : List Nat} (h : l₁.length = l₂.length) (hne : l₂ ≠ []) :
    l₁ ≠ [] := by
  rintro rfl
  exact hne (List.length_eq_zero_iff.mp h.symm)

section

variable {a : Int} {v : Nat} {qn rn : Bool}

theorem bignumDivideUnsignedSmallDenominator_ofInt (ha : a ≠ 0) (hv : 1 < v) (hvr : v < w.radixRoot) :
    bignumDivideUnsignedSmallDenominator w (Bignum.ofInt w a) v qn rn
      = some (Bignum.ofSign w qn (a.natAbs / v), Bignum.ofSign w rn (a.natAbs % v)) := by
  obtain ⟨qs, hscale, hqs, hlen, hval⟩ :=
    scaleDownDigits_spec (by omega) hvr (below_digits w.one_lt_radix a.natAbs)
  rw [value_digits] at hscale hval
  have hR := radixRoot_le_radix w
  have hmod := mod_lt a.natAbs (show v > 0 by omega)
  unfold bignumDivideUnsignedSmallDenominator bignumDestructiveScaleDown Bignum.ofInt
  rw [hscale]
  simp only [hv, hvr, and_self, guard, if_true, bind_eq_bind, pure_def,
    bind_some]
  rw [trim_eq hqs (ne_nil_of_length_eq hlen (digits_ne_nil (Int.natAbs_pos.mpr ha))), hval,
    digitToBignum_eq (w := w) (by omega)]

theorem bignumRemainderUnsignedSmallDenominator_ofInt (hv : 1 < v) (hvr : v < w.radixRoot) :
    bignumRemainderUnsignedSmallDenominator w (Bignum.ofInt w a) v rn
      = some (Bignum.ofSign w rn (a.natAbs % v)) := by
  obtain ⟨qs, hscale, -⟩ := scaleDownDigits_spec (by omega) hvr (below_digits w.one_lt_radix a.natAbs)
  have hR := radixRoot_le_radix w
  have hmod := mod_lt a.natAbs (show v > 0 by omega)
  unfold bignumRemainderUnsignedSmallDenominator Bignum.ofInt
  rw [remainderDigits_eq, hscale, value_digits]
  simp only [hv, hvr, and_self, guard, if_true, bind_eq_bind, pure_def,
    bind_some, map_some]
  rw [digitToBignum_eq (w := w) (by omega)]

end

/-! ## Normalisation -/

theorem normalizeShift_spec : ∀ {fuel v shift : Nat}, v < w.radix →
    w.radix ≤ v * 2 ^ fuel → 0 < v →
    ∃ s, normalizeShift w fuel v shift = some (v * 2 ^ s, shift + s) ∧ s ≤ fuel
      ∧ v * 2 ^ s < w.radix ∧ w.radix ≤ 2 * (v * 2 ^ s)
  | 0, v, shift, hv, hfuel, _ => by omega
  | fuel + 1, v, shift, hv, hfuel, hpos => by
      have heven : 2 * (w.radix / 2) = w.radix := by
        refine Nat.mul_div_cancel' ?_
        exact dvd_pow_self 2 (by have := w.le_half; unfold Word.digitLength; omega)
      rw [normalizeShift]
      split
      · have hshift : v <<< 1 = v * 2 := shiftLeft_eq v 1
        obtain ⟨s, hrec, hs, hb, hn⟩ := @normalizeShift_spec fuel (v * 2)
          (shift + 1) (by omega)
          (by rw [Nat.mul_assoc, ← Nat.pow_succ']; exact hfuel) (by omega)
        rw [hshift, w.nat_eq_of_lt (by omega)]
        dsimp only [bind_eq_bind, bind_some]
        rw [Nat.mul_assoc, ← Nat.pow_succ'] at hrec hb hn
        exact ⟨s + 1, by rw [hrec]; congr 2; omega, by omega, hb, hn⟩
      · exact ⟨0, by simp, Nat.zero_le _, by simpa using hv, by omega⟩

theorem normalizeShift_digit (hv : v < w.radix) (hpos : 0 < v) :
    ∃ s, normalizeShift w w.digitLength v 0 = some (v * 2 ^ s, s) ∧ s < w.digitLength
      ∧ v * 2 ^ s < w.radix ∧ w.radix ≤ 2 * (v * 2 ^ s) := by
  obtain ⟨s, heq, _, hb, hn⟩ := @normalizeShift_spec w _ _ 0 hv
    (show w.radix ≤ v * 2 ^ w.digitLength from Nat.le_mul_of_pos_left _ hpos) hpos
  refine ⟨s, by simpa using heq, ?_, hb, hn⟩
  have : 2 ^ s < 2 ^ w.digitLength :=
    Nat.lt_of_le_of_lt (Nat.le_mul_of_pos_left _ hpos) hb
  exact (Nat.pow_lt_pow_iff_right (by decide)).mp this

theorem radix_split (hs : s ≤ w.digitLength) : w.radix = 2 ^ (w.digitLength - s) * 2 ^ s := by
  unfold Word.radix
  rw [← Nat.pow_add, Nat.sub_add_cancel hs]

theorem normalizationDigits_spec {s : Nat} (hs : s ≤ w.digitLength) :
    ∀ {ds : List Nat} {carry : Nat}, Below w.radix ds → carry < 2 ^ s →
      Below w.radix (normalizationDigits w s ds carry).1
      ∧ (normalizationDigits w s ds carry).1.length = ds.length
      ∧ (normalizationDigits w s ds carry).2 < 2 ^ s
      ∧ w.value (normalizationDigits w s ds carry).1
          + w.radix ^ ds.length * (normalizationDigits w s ds carry).2
        = w.value ds * 2 ^ s + carry
  | [], carry, _, hc => by simpa [normalizationDigits] using hc
  | d :: ds, carry, hds, hc => by
      rw [below_cons] at hds
      have hsplit := radix_split hs
      have hout : d >>> (w.digitLength - s) < 2 ^ s := by
        rw [shiftRight_eq_div_pow, div_lt_iff_lt_mul (two_pow_pos _),
          Nat.mul_comm, ← hsplit]
        exact hds.1
      obtain ⟨hb, hl, ho, hv⟩ := normalizationDigits_spec hs hds.2 hout
      have hdigit : ((d &&& (2 ^ (w.digitLength - s) - 1)) <<< s) ||| carry
          = d % 2 ^ (w.digitLength - s) * 2 ^ s + carry := by
        rw [← Nat.shiftLeft_add_eq_or_of_lt hc, Nat.and_two_pow_sub_one_eq_mod,
          shiftLeft_eq]
      have hmod := mod_lt d (two_pow_pos (w.digitLength - s))
      have hd : d * 2 ^ s = d % 2 ^ (w.digitLength - s) * 2 ^ s
          + w.radix * (d >>> (w.digitLength - s)) := by
        conv_lhs => rw [← mod_add_div d (2 ^ (w.digitLength - s))]
        rw [hsplit, shiftRight_eq_div_pow]
        ring
      rw [normalizationDigits]
      simp only [hdigit]
      refine ⟨below_cons.mpr ⟨?_, hb⟩, by simp [hl], ho, ?_⟩
      · rw [hsplit, Nat.add_comm]
        exact add_mul_lt hc hmod
      · rw [value_cons, value_cons, List.length_cons, Nat.pow_succ']
        have hv' := congrArg (w.radix * ·) hv
        nlinarith

theorem bignumDestructiveNormalizationLonger_spec (hs : s ≤ w.digitLength) (hds : Below w.radix ds) :
    ∃ lower top, bignumDestructiveNormalizationLonger w ds s = lower ++ [top]
      ∧ Below w.radix lower ∧ lower.length = ds.length ∧ top < 2 ^ s
      ∧ w.value (lower ++ [top]) = w.value ds * 2 ^ s := by
  obtain ⟨hb, hl, ho, hv⟩ :=
    normalizationDigits_spec hs hds (two_pow_pos s)
  refine ⟨_, _, rfl, hb, hl, ho, ?_⟩
  simp only [value_append, value_cons, value_nil, hl]
  simpa using hv

theorem bignumDestructiveNormalization_spec (hs : s ≤ w.digitLength) (hds : Below w.radix ds)
    (hfit : w.value ds * 2 ^ s < w.radix ^ ds.length) :
    ∃ ts, bignumDestructiveNormalization w ds s = some ts ∧ Below w.radix ts
      ∧ ts.length = ds.length ∧ w.value ts = w.value ds * 2 ^ s := by
  obtain ⟨hb, hl, _, hv⟩ :=
    normalizationDigits_spec hs hds (two_pow_pos s)
  have hout : (normalizationDigits w s ds 0).2 = 0 := by
    by_contra hne
    have : w.radix ^ ds.length ≤ w.radix ^ ds.length * (normalizationDigits w s ds 0).2 :=
      Nat.le_mul_of_pos_right _ (Nat.pos_of_ne_zero hne)
    omega
  refine ⟨_, ?_, hb, hl, ?_⟩
  · unfold bignumDestructiveNormalization
    simp [hout, guard]
  · rw [hout] at hv
    simpa using hv

theorem unnormalizationDigits_spec {s : Nat} (hs : s ≤ w.digitLength) :
    ∀ {ds : List Nat}, Below w.radix ds →
      Below w.radix (unnormalizationDigits w s ds).1
      ∧ (unnormalizationDigits w s ds).1.length = ds.length
      ∧ (unnormalizationDigits w s ds).2
        = w.value ds % 2 ^ s * 2 ^ (w.digitLength - s)
      ∧ w.value (unnormalizationDigits w s ds).1 = w.value ds / 2 ^ s
  | [], _ => by simp [unnormalizationDigits]
  | d :: ds, hds => by
      rw [below_cons] at hds
      have hsplit := radix_split hs
      obtain ⟨hb, hl, hc, hv⟩ := unnormalizationDigits_spec hs hds.2
      have hdlt : d >>> s < 2 ^ (w.digitLength - s) := by
        rw [shiftRight_eq_div_pow, div_lt_iff_lt_mul (two_pow_pos _), ← hsplit]
        exact hds.1
      have hdigit : (d >>> s) ||| (w.value ds % 2 ^ s * 2 ^ (w.digitLength - s))
          = d / 2 ^ s + w.value ds % 2 ^ s * 2 ^ (w.digitLength - s) := by
        rw [Nat.lor_comm, ← shiftLeft_eq, ← Nat.shiftLeft_add_eq_or_of_lt hdlt,
          shiftRight_eq_div_pow, Nat.add_comm]
      have hmod := mod_lt (w.value ds) (two_pow_pos s)
      have hdm := mod_add_div (w.value ds) (2 ^ s)
      rw [unnormalizationDigits]
      simp only [hc, hdigit]
      have hval : w.value (d :: ds) = d + 2 ^ s * (2 ^ (w.digitLength - s) * w.value ds) := by
        rw [value_cons, hsplit]
        ring
      refine ⟨below_cons.mpr ⟨?_, hb⟩, by simp [hl], ?_, ?_⟩
      · rw [shiftRight_eq_div_pow] at hdlt
        rw [hsplit, Nat.mul_comm (2 ^ (w.digitLength - s))]
        exact add_mul_lt hdlt hmod
      · rw [hval, Nat.add_mul_mod_self_left, Nat.and_two_pow_sub_one_eq_mod,
          shiftLeft_eq]
      · rw [hval, Nat.add_mul_div_left _ _ (two_pow_pos s), value_cons, hv, hsplit]
        conv_rhs => rw [← hdm]
        ring

theorem bignumDestructiveUnnormalization_spec (hs : s ≤ w.digitLength) (hds : Below w.radix ds) (hr : w.value ds = r * 2 ^ s) :
    ∃ ts, bignumDestructiveUnnormalization w ds s = some ts ∧ Below w.radix ts
      ∧ ts.length = ds.length ∧ w.value ts = r := by
  obtain ⟨hb, hl, hc, hv⟩ := unnormalizationDigits_spec hs hds
  rw [hr] at hc hv
  rw [Nat.mul_div_cancel _ (two_pow_pos s)] at hv
  refine ⟨_, ?_, hb, hl, hv⟩
  unfold bignumDestructiveUnnormalization
  simp [hc, guard]

theorem bignumDivideUnsignedMediumDenominator_ofInt {qn rn : Bool} {a : Int} {v : Nat}
    (ha : a ≠ 0) (hv : 0 < v) (hvr : v < w.radix) :
    bignumDivideUnsignedMediumDenominator w (Bignum.ofInt w a) v qn rn
      = some (Bignum.ofSign w qn (a.natAbs / v), Bignum.ofSign w rn (a.natAbs % v)) := by
  have hx := Int.natAbs_pos.mpr ha
  unfold Bignum.ofInt
  generalize a.natAbs = x at hx ⊢
  obtain ⟨s, hshift, hs, hb, hnorm⟩ := normalizeShift_digit hvr hv
  have hmod := mod_lt x hv
  -- dividing the shifted numerator by the shifted denominator
  have key : ∀ {ds : List Nat}, Below w.radix ds → ds ≠ [] → w.value ds = x * 2 ^ s →
      (divideDigits w (v * 2 ^ s) ds).bind
          (fun p => some (trim ⟨qn, p.1⟩, digitToBignum (p.2 >>> s) rn))
        = some (Bignum.ofSign w qn (x / v), Bignum.ofSign w rn (x % v)) := by
    intro ds hds hne hval
    obtain ⟨qs, hdiv, hqs, hlen, hq⟩ := divideDigits_spec hb hnorm hds
    rw [hval, Nat.mul_mod_mul_right] at hdiv
    rw [hval, Nat.mul_div_mul_right _ _ (two_pow_pos s)] at hq
    rw [hdiv]
    dsimp only [bind_eq_bind, bind_some]
    rw [trim_eq hqs (ne_nil_of_length_eq hlen hne), hq, shiftRight_eq_div_pow,
      Nat.mul_div_cancel _ (two_pow_pos s), digitToBignum_eq (w := w) (by omega)]
  unfold bignumDivideUnsignedMediumDenominator
  rw [hshift]
  dsimp only [bind_eq_bind, bind_some]
  split
  · rename_i h0
    exact key (below_digits w.one_lt_radix x) (digits_ne_nil hx) (by simp [h0])
  · obtain ⟨lower, top, heq, hlow, _, htop, hval⟩ :=
      bignumDestructiveNormalizationLonger_spec hs.le (below_digits w.one_lt_radix x)
    rw [heq]
    refine key ?_ (by simp) (by rw [hval, value_digits])
    have : 2 ^ s < w.radix := Nat.pow_lt_pow_right (by decide) hs
    simpa using ⟨hlow, by omega⟩

end MitScheme
