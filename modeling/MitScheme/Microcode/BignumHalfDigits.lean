import MitScheme.Microcode.BignumDivideProof

/-!
# Half-digit arithmetic

The products and the quotients of bignums are put together from those of half digits. For all digits below the
radix no intermediate result leaves the machine word and no carry is lost: the multiplication after every round
of its outer loop, the scaling up with its carry out, and the division of two digits by one with the guesses of
its two steps.
-/

namespace MitScheme

open DigitList Bignum

variable {w : Word}

/-! ## Products -/

theorem trim_digits (x : Bignum) : x.trim.digits = x.digits.rdropWhile (· == 0) := by
  unfold trim
  dsimp only
  split
  · rfl
  · rename_i hle
    -- nothing was dropped
    exact ((List.rdropWhile_prefix _ _).eq_of_length
      (Nat.le_antisymm (List.rdropWhile_prefix _ _).length_le (Nat.le_of_not_lt hle))).symm

theorem below_trim {x : Bignum} (h : Below w.radix x.digits) : Below w.radix x.trim.digits := by
  rw [trim_digits]
  intro d hd
  exact h d ((List.rdropWhile_prefix _ _).subset hd)

theorem value_trim (x : Bignum) : w.value x.trim.digits = w.value x.digits := by
  rw [trim_digits]
  exact ofDigits_rdropWhile x.digits

theorem multiplyOuter_zeroed {xs ys : List Nat} {n : Nat} (hxs : Below w.radix xs) (hys : Below w.radix ys)
    (hn : xs.length + ys.length ≤ n) :
    ∃ rs, multiplyOuter w ys xs (List.replicate n 0) = some rs ∧ Below w.radix rs ∧ rs.length = n
      ∧ w.value rs = w.value xs * w.value ys := by
  have hzero : w.value (List.replicate n 0) = 0 := Nat.ofDigits_replicate_zero
  obtain ⟨rs, hmul, hrs, hlen, hval⟩ := multiplyOuter_spec hys hxs (below_replicate_zero w.radix_pos n)
    (by rwa [List.length_replicate]) (by rw [hzero]; exact Nat.pow_pos w.radix_pos)
  rw [hzero, Nat.zero_add] at hval
  rw [List.length_replicate] at hlen
  exact ⟨rs, hmul, hrs, hlen, hval⟩

theorem bignumMultiplyUnsigned_spec {x y : Bignum} (negative : Bool) (hx : Below w.radix x.digits)
    (hy : Below w.radix y.digits) :
    ∃ r, bignumMultiplyUnsigned w x y negative = some r ∧ Below w.radix r.digits
      ∧ w.value r.digits = w.value x.digits * w.value y.digits := by
  unfold bignumMultiplyUnsigned Bignum.length
  dsimp only
  split
  · obtain ⟨rs, hmul, hrs, -, hval⟩ := multiplyOuter_zeroed hy hx le_rfl
    dsimp only
    rw [hmul]
    exact ⟨_, rfl, below_trim hrs, by rw [value_trim, hval, Nat.mul_comm]⟩
  · obtain ⟨rs, hmul, hrs, -, hval⟩ := multiplyOuter_zeroed hx hy le_rfl
    dsimp only
    rw [hmul]
    exact ⟨_, rfl, below_trim hrs, by rw [value_trim, hval]⟩

theorem scaleUp_carry {ds rs : List Nat} {factor out : Nat} (hds : Below w.radix ds) (hf : factor < w.radixRoot)
    (hval : w.value rs + w.radix ^ ds.length * out = factor * w.value ds) : out < w.radixRoot := by
  have hlt := value_lt hds
  refine Nat.lt_of_mul_lt_mul_left (a := w.radix ^ ds.length) ?_
  calc w.radix ^ ds.length * out ≤ factor * w.value ds := by omega
    _ ≤ factor * w.radix ^ ds.length := Nat.mul_le_mul_left factor hlt.le
    _ < w.radixRoot * w.radix ^ ds.length := Nat.mul_lt_mul_of_pos_right hf (Nat.pow_pos w.radix_pos)
    _ = w.radix ^ ds.length * w.radixRoot := Nat.mul_comm _ _

theorem bignumMultiplyUnsignedSmallFactor_spec {x : Bignum} {factor : Nat} (negative : Bool)
    (hx : Below w.radix x.digits) (hf : 1 < factor) (hfr : factor < w.radixRoot) :
    ∃ r, bignumMultiplyUnsignedSmallFactor w x factor negative = some r ∧ Below w.radix r.digits
      ∧ w.value r.digits = factor * w.value x.digits := by
  have hbelow : Below w.radix (x.digits ++ [0]) := by
    rw [below_append, below_cons]
    exact ⟨hx, w.radix_pos, below_nil⟩
  obtain ⟨rs, out, hscale, hrs, -, hval⟩ := scaleUpDigits_spec hfr hbelow w.radixRoot_pos
  rw [value_append, value_cons, value_nil, Nat.mul_zero, Nat.add_zero, Nat.mul_zero, Nat.add_zero,
    List.length_append, List.length_singleton, Nat.pow_succ] at hval
  -- the digit reserved for the carry takes it all
  have hout : out = 0 := by
    have hlt := value_lt hx
    have hle := radixRoot_le_radix w
    have hproduct : factor * w.value x.digits < w.radix ^ x.digits.length * w.radix := by
      rw [Nat.mul_comm factor]
      exact Nat.mul_lt_mul_of_lt_of_le hlt (by omega) (by omega)
    by_contra hne
    have hmul : w.radix ^ x.digits.length * w.radix * 1 ≤ w.radix ^ x.digits.length * w.radix * out :=
      Nat.mul_le_mul_left _ (Nat.pos_of_ne_zero hne)
    omega
  rw [hout, Nat.mul_zero, Nat.add_zero] at hval
  have hscaled : bignumDestructiveScaleUp w (x.digits ++ [0]) factor = some rs := by
    rw [bignumDestructiveScaleUp, hscale, hout]
    simp only [guard, hf, hfr, and_self, if_true, Option.bind_eq_bind, Option.pure_def, Option.bind_some]
  rw [bignumMultiplyUnsignedSmallFactor, hscaled]
  exact ⟨_, rfl, below_trim hrs, by rw [value_trim, hval]⟩

/-! ## Quotients -/

/-- The guess `BDD_STEP` starts with. -/
def bddEstimate (w : Word) (v1 u0 u1 : Nat) : Nat :=
  if u0 ≠ v1 then w.hdCons u0 u1 / v1 else w.radixRoot - 1

theorem bddAdjust_le {v1 v2 : Nat} : ∀ {guess comparand result : Nat},
    bddAdjust w v1 v2 guess comparand = some result → result ≤ guess
  | 0, comparand, result, h => by
      rw [bddAdjust] at h
      cases h
      exact le_rfl
  | guess + 1, comparand, result, h => by
      rw [bddAdjust] at h
      obtain ⟨product, -, h⟩ := Option.bind_eq_some_iff.mp h
      split at h
      · obtain ⟨comparand', -, h⟩ := Option.bind_eq_some_iff.mp h
        split at h
        · cases h
          exact Nat.le_succ guess
        · exact (bddAdjust_le h).trans (Nat.le_succ guess)
      · cases h
        exact le_rfl

theorem nat_eq_some {n m : Nat} (h : w.nat n = some m) : m = n := by
  unfold Word.nat at h
  split at h
  · cases h
    rfl
  · cases h

theorem bddGuess_le {v1 v2 u0 u1 u2 result : Nat} (h : bddGuess w v1 v2 u0 u1 u2 = some result) :
    result ≤ bddEstimate w v1 u0 u1 := by
  unfold bddGuess at h
  unfold bddEstimate
  split at h
  · rename_i hne
    rw [if_pos hne]
    obtain ⟨u0u1, hfit, h⟩ := Option.bind_eq_some_iff.mp h
    obtain ⟨comparand, -, h⟩ := Option.bind_eq_some_iff.mp h
    rw [← nat_eq_some hfit]
    exact bddAdjust_le h
  · rename_i heq
    rw [if_neg heq]
    obtain ⟨comparand, -, h⟩ := Option.bind_eq_some_iff.mp h
    exact bddAdjust_le h

theorem bddEstimate_mul_le (v1 u0 : Nat) {u1 : Nat} (hu1 : u1 < w.radixRoot) :
    bddEstimate w v1 u0 u1 * v1 ≤ u0 * w.radixRoot + u1 := by
  unfold bddEstimate
  split
  · rw [w.hdCons_eq hu1]
    exact Nat.div_mul_le_self _ v1
  · rename_i heq
    obtain rfl : u0 = v1 := not_not.mp heq
    calc (w.radixRoot - 1) * u0 ≤ w.radixRoot * u0 := Nat.mul_le_mul_right u0 (Nat.sub_le _ _)
      _ = u0 * w.radixRoot := Nat.mul_comm _ _
      _ ≤ u0 * w.radixRoot + u1 := Nat.le_add_right _ _

theorem bddEstimate_lt {v1 v2 u0 u1 : Nat} (hv2 : v2 < w.radixRoot) (hv : 0 < v1) (hu1 : u1 < w.radixRoot)
    (hlt : u0 * w.radixRoot + u1 < v1 * w.radixRoot + v2) : bddEstimate w v1 u0 u1 < w.radixRoot := by
  have hR := w.radixRoot_pos
  unfold bddEstimate
  split
  · rename_i hne
    rw [w.hdCons_eq hu1, Nat.div_lt_iff_lt_mul hv, Nat.mul_comm w.radixRoot]
    -- a leading half digit that is not that of the denominator is below it
    have hu0 : u0 < v1 := by
      by_contra hge
      have hmul : (v1 + 1) * w.radixRoot ≤ u0 * w.radixRoot := Nat.mul_le_mul_right _ (by omega)
      rw [Nat.add_mul] at hmul
      omega
    have hmul : (u0 + 1) * w.radixRoot ≤ v1 * w.radixRoot := Nat.mul_le_mul_right _ hu0
    rw [Nat.add_mul] at hmul
    omega
  · omega

/-- **The first guess is too large by two at most**, when the denominator is normalised. -/
theorem bddEstimate_le {v1 v2 u0 u1 u2 : Nat} (hv2 : v2 < w.radixRoot) (hnorm : w.radixRoot ≤ 2 * v1)
    (hu1 : u1 < w.radixRoot) (hlt : u0 * w.radixRoot + u1 < v1 * w.radixRoot + v2) :
    bddEstimate w v1 u0 u1
      ≤ ((u0 * w.radixRoot + u1) * w.radixRoot + u2) / (v1 * w.radixRoot + v2) + 2 := by
  have hR := w.radixRoot_pos
  have hv : 0 < v1 := by omega
  have hV : 0 < v1 * w.radixRoot + v2 := Nat.add_pos_left (Nat.mul_pos hv hR) _
  have hmul := bddEstimate_mul_le v1 u0 hu1
  have hguess := bddEstimate_lt hv2 hv hu1 hlt
  generalize bddEstimate w v1 u0 u1 = guess at hmul hguess
  rcases Nat.lt_or_ge guess 2 with hsmall | hlarge
  · exact hsmall.le.trans (Nat.le_add_left 2 _)
  obtain ⟨e, rfl⟩ := Nat.exists_eq_add_of_le hlarge
  have hle : e ≤ ((u0 * w.radixRoot + u1) * w.radixRoot + u2) / (v1 * w.radixRoot + v2) := by
    rw [Nat.le_div_iff_mul_le hV]
    have hlow : e * v2 ≤ 2 * v1 * w.radixRoot := by
      calc e * v2 ≤ w.radixRoot * w.radixRoot := Nat.mul_le_mul (by omega) hv2.le
        _ ≤ 2 * v1 * w.radixRoot := Nat.mul_le_mul_right _ hnorm
    calc e * (v1 * w.radixRoot + v2) = e * v1 * w.radixRoot + e * v2 := by ring
      _ ≤ e * v1 * w.radixRoot + 2 * v1 * w.radixRoot := Nat.add_le_add_left hlow _
      _ = (2 + e) * v1 * w.radixRoot := by ring
      _ ≤ (u0 * w.radixRoot + u1) * w.radixRoot := Nat.mul_le_mul_right _ hmul
      _ ≤ (u0 * w.radixRoot + u1) * w.radixRoot + u2 := Nat.le_add_right _ _
  rw [Nat.add_comm 2 e]
  exact Nat.add_le_add_right hle 2

/-- One step of the digit division: its loop lowers the guess to the quotient, and the subtraction leaves the
remainder without a borrow. -/
structure HalfStep (w : Word) (v1 v2 u0 u1 u2 : Nat) : Prop where
  quotient_le : ((u0 * w.radixRoot + u1) * w.radixRoot + u2) / (v1 * w.radixRoot + v2)
    ≤ bddEstimate w v1 u0 u1
  estimate_le : bddEstimate w v1 u0 u1
    ≤ ((u0 * w.radixRoot + u1) * w.radixRoot + u2) / (v1 * w.radixRoot + v2) + 2
  guess : bddGuess w v1 v2 u0 u1 u2
    = some (((u0 * w.radixRoot + u1) * w.radixRoot + u2) / (v1 * w.radixRoot + v2))
  quotient_lt : ((u0 * w.radixRoot + u1) * w.radixRoot + u2) / (v1 * w.radixRoot + v2) < w.radixRoot
  subtract : ∃ u0' u1' u2', bddStep w v1 v2 u0 u1 u2
      = some (((u0 * w.radixRoot + u1) * w.radixRoot + u2) / (v1 * w.radixRoot + v2), u0', u1', u2')
    ∧ u1' < w.radixRoot ∧ u2' < w.radixRoot
    ∧ u1' * w.radixRoot + u2'
      = ((u0 * w.radixRoot + u1) * w.radixRoot + u2) % (v1 * w.radixRoot + v2)

theorem halfStep {v1 v2 u0 u1 u2 : Nat} (hv1 : v1 < w.radixRoot) (hv2 : v2 < w.radixRoot)
    (hnorm : w.radixRoot ≤ 2 * v1) (hu1 : u1 < w.radixRoot) (hu2 : u2 < w.radixRoot)
    (hlt : u0 * w.radixRoot + u1 < v1 * w.radixRoot + v2) : HalfStep w v1 v2 u0 u1 u2 := by
  have hv : 0 < v1 := by
    have hR := w.radixRoot_pos
    omega
  have hguess := bddGuess_eq hv1 hv2 hv hu1 hu2 hlt
  obtain ⟨u0', u1', u2', hstep, h1, h2, hmod, hq⟩ := bddStep_spec hv1 hv2 hv hu1 hu2 hlt
  exact ⟨bddGuess_le hguess, bddEstimate_le hv2 hnorm hu1 hlt, hguess, hq, u0', u1', u2', hstep, h1, h2, hmod⟩

/-! ## No carry is lost -/

/-- **Half-digit arithmetic never overflows.** A result that is there says that every expression of a `long` on
the way to it fits; and the digits stored are below the radix, after every round of a loop. -/
theorem half_digit_arithmetic (w : Word) :
    (∀ x y r carry, x < w.radix → y < w.radix → r < w.radix → carry < w.radix →
      ∃ d out, multiplyStep w x y r carry = some (d, out) ∧ d < w.radix ∧ out < w.radix
        ∧ d + w.radix * out = x * y + r + carry)
    ∧ (∀ xs ys k n, Below w.radix xs → Below w.radix ys → xs.length + ys.length ≤ n →
      ∃ rs, multiplyOuter w ys (xs.take k) (List.replicate n 0) = some rs ∧ Below w.radix rs
        ∧ rs.length = n ∧ w.value rs = w.value (xs.take k) * w.value ys)
    ∧ (∀ (x y : Bignum) negative, Below w.radix x.digits → Below w.radix y.digits →
      ∃ r, bignumMultiplyUnsigned w x y negative = some r ∧ Below w.radix r.digits
        ∧ w.value r.digits = w.value x.digits * w.value y.digits)
    ∧ (∀ factor ds, factor < w.radixRoot → Below w.radix ds →
      ∃ rs out, scaleUpDigits w factor ds 0 = some (rs, out) ∧ Below w.radix rs ∧ out < w.radixRoot
        ∧ w.value rs + w.radix ^ ds.length * out = factor * w.value ds)
    ∧ (∀ (x : Bignum) factor negative, Below w.radix x.digits → 1 < factor → factor < w.radixRoot →
      ∃ r, bignumMultiplyUnsignedSmallFactor w x factor negative = some r ∧ Below w.radix r.digits
        ∧ w.value r.digits = factor * w.value x.digits)
    ∧ (∀ v1 v2 u0 u1 u2, v1 < w.radixRoot → v2 < w.radixRoot → w.radixRoot ≤ 2 * v1 → u1 < w.radixRoot →
      u2 < w.radixRoot → u0 * w.radixRoot + u1 < v1 * w.radixRoot + v2 → HalfStep w v1 v2 u0 u1 u2)
    ∧ (∀ uh ul v, v < w.radix → w.radix ≤ 2 * v → uh < v → ul < w.radix →
      ∃ q r, bignumDigitDivide w uh ul v = some (q, r) ∧ q < w.radix ∧ r < v ∧ uh * w.radix + ul = q * v + r)
    ∧ ∀ v ds, v < w.radix → w.radix ≤ 2 * v → Below w.radix ds →
      ∃ qs r, divideDigits w v ds = some (qs, r) ∧ Below w.radix qs ∧ r < v
        ∧ w.value ds = w.value qs * v + r := by
  refine ⟨fun x y r carry hx hy hr hc => multiplyStep_spec hx hy hr hc, ?_,
    fun x y negative hx hy => bignumMultiplyUnsigned_spec negative hx hy, ?_,
    fun x factor negative hx hf hfr => bignumMultiplyUnsignedSmallFactor_spec negative hx hf hfr,
    fun v1 v2 u0 u1 u2 hv1 hv2 hnorm hu1 hu2 hlt => halfStep hv1 hv2 hnorm hu1 hu2 hlt, ?_, ?_⟩
  · intro xs ys k n hxs hys hn
    refine multiplyOuter_zeroed (hxs.take k) hys ?_
    have hle := List.length_take_le' k xs
    omega
  · intro factor ds hf hds
    obtain ⟨rs, out, hscale, hrs, -, hval⟩ := scaleUpDigits_spec hf hds w.radixRoot_pos
    rw [Nat.add_zero] at hval
    exact ⟨rs, out, hscale, hrs, scaleUp_carry hds hf hval, hval⟩
  · intro uh ul v hv hnorm huh hul
    have hpos : 0 < v := by omega
    refine ⟨_, _, bignumDigitDivide_eq hv hnorm huh hul, ?_, Nat.mod_lt _ hpos, (Nat.div_add_mod' _ v).symm⟩
    rw [Nat.div_lt_iff_lt_mul hpos]
    have hmul : (uh + 1) * w.radix ≤ v * w.radix := Nat.mul_le_mul_right _ huh
    rw [Nat.add_mul] at hmul
    rw [Nat.mul_comm w.radix]
    omega
  · intro v ds hv hnorm hds
    have hpos : 0 < v := by omega
    obtain ⟨qs, hdiv, hqs, -, hval⟩ := divideDigits_spec hv hnorm hds
    exact ⟨qs, _, hdiv, hqs, Nat.mod_lt _ hpos, by rw [hval]; exact (Nat.div_add_mod' _ v).symm⟩

theorem half_digit_arithmetic_w64 :
    (∃ r, bignumMultiplyUnsigned w64 ⟨false, [2 ^ 62 - 1, 2 ^ 62 - 1]⟩ ⟨false, [2 ^ 62 - 1]⟩ false = some r
      ∧ Below w64.radix r.digits
      ∧ w64.value r.digits = w64.value [2 ^ 62 - 1, 2 ^ 62 - 1] * w64.value [2 ^ 62 - 1])
    ∧ ∃ q r, bignumDigitDivide w64 (2 ^ 62 - 2) (2 ^ 62 - 1) (2 ^ 62 - 1) = some (q, r) ∧ q < w64.radix
      ∧ r < 2 ^ 62 - 1 ∧ (2 ^ 62 - 2) * w64.radix + (2 ^ 62 - 1) = q * (2 ^ 62 - 1) + r := by
  obtain ⟨-, -, hmultiply, -, -, -, hdivide, -⟩ := half_digit_arithmetic w64
  exact ⟨hmultiply _ _ false (by decide) (by decide),
    hdivide _ _ _ (by decide) (by decide) (by decide) (by decide)⟩

end MitScheme
