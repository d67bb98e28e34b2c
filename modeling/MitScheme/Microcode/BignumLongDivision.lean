import MitScheme.Microcode.BignumDivideProof

/-!
# Long division is exact

Algorithm D, window by window. A window is as many digits of the numerator as the
denominator has, plus one on top; it is always below the denominator times the
radix, because what the previous window left is a remainder. The guess is the
quotient digit or one more, `bignum_divide_subtract` finds out which, and leaves
the window's remainder.
-/

namespace MitScheme

open DigitList Bignum BignumComparison
open Option (bind_eq_bind bind_some)

variable {w : Word}

/-! ## The guess -/

theorem guess_product {g v2 : Nat} (hg : g < w.radix) (hv2 : v2 < w.radix) :
    ∃ pl ph pl' ph', w.nat (w.hdLow v2 * w.hdLow g) = some pl
      ∧ w.nat (w.hdLow v2 * w.hdHigh g + w.hdHigh v2 * w.hdLow g + w.hdHigh pl) = some ph
      ∧ w.hdCons (w.hdLow ph) (w.hdLow pl) = pl'
      ∧ w.nat (w.hdHigh v2 * w.hdHigh g + w.hdHigh ph) = some ph'
      ∧ pl' < w.radix ∧ pl' + w.radix * ph' = g * v2 := by
  have hR := w.radix_eq
  have hgl := w.mod_radixRoot_lt g
  have hgh := w.div_radixRoot_lt hg
  have hvl := w.mod_radixRoot_lt v2
  have hvh := w.div_radixRoot_lt hv2
  have h1 := mul_half_le hvl hgl
  have h2 := mul_half_le hvl hgh
  have h3 := mul_half_le hvh hgl
  have h4 := mul_half_le hvh hgh
  simp only [Word.hdLow_eq, Word.hdHigh_eq]
  generalize hpl : v2 % w.radixRoot * (g % w.radixRoot) = pl at h1 ⊢
  have hplh : pl / w.radixRoot < w.radixRoot := w.div_radixRoot_lt (by omega)
  generalize hph : v2 % w.radixRoot * (g / w.radixRoot)
    + v2 / w.radixRoot * (g % w.radixRoot) + pl / w.radixRoot = ph
  have hphh : ph / w.radixRoot < 2 * w.radixRoot := by
    rw [Nat.div_lt_iff_lt_mul w.radixRoot_pos, Nat.mul_assoc]
    omega
  have heq := @mul_halves w.radixRoot (v2 % w.radixRoot) (v2 / w.radixRoot) (g % w.radixRoot)
    (g / w.radixRoot) 0 0 0 pl ph (by omega) (by omega)
  rw [halves_eq, halves_eq, ← hR] at heq
  have hfit : v2 / w.radixRoot * (g / w.radixRoot) + ph / w.radixRoot < 2 * w.radix := by
    omega
  refine ⟨pl, ph, _, _, w.nat_eq_of_lt (by omega), by rw [hph, w.nat_eq_of_lt (by omega)],
    rfl, w.nat_eq_of_lt hfit, w.hdCons_lt (w.mod_radixRoot_lt ph) (w.mod_radixRoot_lt pl), ?_⟩
  rw [w.hdCons_eq (w.mod_radixRoot_lt pl), heq]
  ring

theorem normalizedAdjust_spec {v1 v2 cl T Q : Nat} (hv1 : v1 < w.radix) (hv2 : v2 < w.radix)
    (hcl : cl < w.radix) (hQ : ∀ g, T < g * (v1 * w.radix + v2) → Q < g) :
    ∀ {g ch : Nat}, ch * w.radix + cl + g * (v1 * w.radix) = T → g < w.radix →
      ch < 2 * w.radix → Q ≤ g →
      ∃ g', normalizedAdjust w v1 v2 cl g ch = some g' ∧ g' ≤ g ∧ Q ≤ g'
        ∧ g' * (v1 * w.radix + v2) ≤ T
  | 0, ch, _, _, _, hq => ⟨0, rfl, Nat.le_refl 0, hq, by omega⟩
  | g + 1, ch, hc, hg, hch, hq => by
      obtain ⟨pl, ph, pl', ph', hpl, hph, hcons, hph', hlt, hprod⟩ := guess_product hg hv2
      rw [normalizedAdjust]
      simp only [hpl, hph, hcons, hph', bind_eq_bind, bind_some]
      -- comparing the pairs is comparing the double digits
      have hcmp : (ch > ph' ∨ (ch = ph' ∧ cl ≥ pl'))
          ↔ (g + 1) * v2 ≤ ch * w.radix + cl := by
        rw [← hprod]
        constructor
        · rintro (h | ⟨h, hle⟩)
          · have : w.radix * (ph' + 1) ≤ w.radix * ch := Nat.mul_le_mul_left _ h
            rw [Nat.mul_add, Nat.mul_comm w.radix ch] at this
            omega
          · rw [h, Nat.mul_comm]
            omega
        · intro h
          rcases lt_trichotomy ch ph' with h' | h' | h'
          · have : (ch + 1) * w.radix ≤ ph' * w.radix := Nat.mul_le_mul_right _ h'
            rw [Nat.add_mul, Nat.mul_comm ph'] at this
            omega
          · rw [h', Nat.mul_comm] at h
            omega
          · exact Or.inl h'
      split
      · rename_i h
        refine ⟨g + 1, rfl, Nat.le_refl _, hq, ?_⟩
        have := hcmp.mp h
        rw [Nat.mul_add]
        omega
      · have hlow : Q < g + 1 := by
          refine hQ (g + 1) ?_
          rw [Nat.mul_add]
          omega
        have hch' : ch < w.radix := by
          by_contra hge
          have h1 : w.radix * w.radix ≤ ch * w.radix := Nat.mul_le_mul_right _ (by omega)
          have h2 := mul_half_le hg hv2
          omega
        have hc' : (ch + v1) * w.radix + cl + g * (v1 * w.radix) = T := by
          rw [← hc]
          ring
        rw [w.nat_eq_of_lt (by omega)]
        dsimp only [bind_some]
        split
        · rename_i hbreak
          refine ⟨g, rfl, by omega, by omega, ?_⟩
          have h1 : w.radix * w.radix ≤ (ch + v1) * w.radix :=
            Nat.mul_le_mul_right _ hbreak
          have h2 := mul_half_le (show g < w.radix by omega) hv2
          rw [Nat.mul_add]
          omega
        · obtain ⟨g', heq, hle, hQg, hT⟩ := normalizedAdjust_spec hv1 hv2 hcl hQ hc'
            (by omega) (by omega) (by omega)
          exact ⟨g', heq, by omega, hQg, hT⟩

/-- **The guess is the quotient digit, or one more.** -/
theorem normalizedGuess_spec {v1 v2 uj u1 cl S U V : Nat} (hv1 : v1 < w.radix)
    (hnorm : w.radix ≤ 2 * v1) (hv2 : v2 < w.radix) (hu1 : u1 < w.radix)
    (hcl : cl < w.radix) (hS : 0 < S) (hVlo : (v1 * w.radix + v2) * S ≤ V)
    (hVhi : V < (v1 * w.radix + v2 + 1) * S)
    (hUlo : ((uj * w.radix + u1) * w.radix + cl) * S ≤ U)
    (hUhi : U < ((uj * w.radix + u1) * w.radix + cl + 1) * S) (hUV : U < w.radix * V) :
    ∃ g, normalizedGuess w v1 v2 uj u1 cl = some g ∧ g < w.radix ∧ U / V ≤ g
      ∧ g ≤ U / V + 1 := by
  have hVpos : 0 < V := by
    refine Nat.lt_of_lt_of_le ?_ hVlo
    exact Nat.mul_pos (Nat.add_pos_left (Nat.mul_pos (by omega) w.radix_pos) _) hS
  have hqlt : U / V < w.radix := Nat.div_lt_of_lt_mul (by rwa [Nat.mul_comm])
  generalize hT : (uj * w.radix + u1) * w.radix + cl = T at hUlo hUhi
  have hQ : ∀ g, T < g * (v1 * w.radix + v2) → U / V < g :=
    fun g h => div_lt_of_guess_gt hVlo hUhi h
  -- the leading digit of the window is at most that of the denominator
  have huj : uj ≤ v1 := by
    by_contra hgt
    have h1 : (v1 + 1) * w.radix ≤ uj * w.radix := Nat.mul_le_mul_right _ (by omega)
    have h3 : T * S < w.radix * ((v1 * w.radix + v2 + 1) * S) :=
      Nat.lt_of_le_of_lt hUlo (Nat.lt_of_lt_of_le hUV (Nat.mul_le_mul_left _ hVhi.le))
    rw [← Nat.mul_assoc] at h3
    have h4 := Nat.lt_of_mul_lt_mul_right h3
    nlinarith
  suffices h : ∃ g, normalizedGuess w v1 v2 uj u1 cl = some g ∧ g < w.radix ∧ U / V ≤ g
      ∧ g * (v1 * w.radix + v2) ≤ T by
    obtain ⟨g, heq, hg, hge, hle⟩ := h
    refine ⟨g, heq, hg, hge, guess_le_div_add_one hVhi.le hUlo ?_ hVpos hle⟩
    refine Nat.le_trans ?_ hVlo
    refine Nat.mul_le_mul_right S (Nat.le_trans hg.le ?_)
    exact Nat.le_trans (Nat.le_mul_of_pos_left _ (show 0 < v1 by omega))
      (Nat.le_add_right _ _)
  unfold normalizedGuess
  split
  · have hlt : uj < v1 := by omega
    rw [bignumDigitDivide_eq hv1 hnorm hlt hu1]
    have hmod := Nat.mod_lt (uj * w.radix + u1) (show v1 > 0 by omega)
    have hdm := Nat.div_add_mod' (uj * w.radix + u1) v1
    have hg : (uj * w.radix + u1) / v1 < w.radix := by
      rw [Nat.div_lt_iff_lt_mul (by omega), Nat.mul_comm w.radix, Nat.add_comm]
      exact add_mul_lt hu1 hlt
    have hinit : U / V ≤ (uj * w.radix + u1) / v1 := by
      have := div_lt_of_guess_gt (g := (uj * w.radix + u1) / v1 + 1) (D := v1)
        (T := uj * w.radix + u1) (S := w.radix * S) (U := U) (V := V) (by nlinarith)
        (by nlinarith) (by rw [Nat.add_mul]; omega)
      omega
    obtain ⟨g, heq, hle, hQg, hTg⟩ := @normalizedAdjust_spec w _ _ _ _ _ hv1 hv2 hcl hQ
      ((uj * w.radix + u1) / v1) ((uj * w.radix + u1) % v1)
      (by rw [← hT]
          conv_rhs => rw [← hdm]
          ring) hg (by omega) hinit
    exact ⟨g, heq, by omega, hQg, hTg⟩
  · rename_i heq
    obtain rfl : uj = v1 := not_not.mp heq
    rw [w.nat_eq_of_lt (by omega)]
    obtain ⟨k, hk⟩ : ∃ k, w.radix = k + 1 := ⟨w.radix - 1, by omega⟩
    obtain ⟨g, heq, hle, hQg, hTg⟩ := @normalizedAdjust_spec w _ _ _ _ _ hv1 hv2 hcl hQ
      (w.radix - 1) (u1 + uj)
      (by rw [← hT, hk]
          simp only [Nat.add_sub_cancel]
          ring) (by omega) (by omega) (by omega)
    exact ⟨g, heq, by omega, hQg, hTg⟩

/-! ## Multiply and subtract -/

theorem mulSubStep_spec {g v u carry : Nat} (hg : g < w.radix) (hv : v < w.radix)
    (hu : u < w.radix) (hc : carry < w.radix) :
    ∃ d out, mulSubStep w g v u carry = some (d, out) ∧ d < w.radix ∧ out < w.radix
      ∧ d + (v * g + carry) = u + w.radix * out := by
  have hR := w.radix_eq
  have hRge := w.radixRoot_ge
  have hlim := w.longLimit_eq
  have hvl := w.mod_radixRoot_lt v
  have hvh := w.div_radixRoot_lt hv
  have hgl := w.mod_radixRoot_lt g
  have hgh := w.div_radixRoot_lt hg
  have hcl := w.mod_radixRoot_lt carry
  have hch := w.div_radixRoot_lt hc
  have h1 := mul_half_le hvl hgl
  have h2 := mul_half_le hvl hgh
  have h3 := mul_half_le hvh hgl
  have h4 := mul_half_le hvh hgh
  unfold mulSubStep
  simp only [Word.hdLow_eq, Word.hdHigh_eq]
  generalize hpl : v % w.radixRoot * (g % w.radixRoot) + carry % w.radixRoot = pl
  have hplh : pl / w.radixRoot < w.radixRoot := w.div_radixRoot_lt (by omega)
  rw [w.nat_eq_of_lt (by omega)]
  simp only [bind_eq_bind, bind_some]
  generalize hph : v % w.radixRoot * (g / w.radixRoot)
    + v / w.radixRoot * (g % w.radixRoot) + pl / w.radixRoot + carry / w.radixRoot = ph
  have hphfit : ph < 2 * w.radix := by omega
  have hphh : ph / w.radixRoot < 2 * w.radixRoot := by
    rw [Nat.div_lt_iff_lt_mul w.radixRoot_pos, Nat.mul_assoc, ← hR]
    exact hphfit
  have heq := @mul_halves w.radixRoot (v % w.radixRoot) (v / w.radixRoot) (g % w.radixRoot)
    (g / w.radixRoot) 0 (carry % w.radixRoot) (carry / w.radixRoot) pl ph (by omega) (by omega)
  rw [halves_eq, halves_eq, halves_eq, ← hR, ← w.hdCons_eq (w.mod_radixRoot_lt pl)] at heq
  have hplow := w.hdCons_lt (w.mod_radixRoot_lt ph) (w.mod_radixRoot_lt pl)
  have hqfit : v / w.radixRoot * (g / w.radixRoot) + ph / w.radixRoot + 1 < 2 * w.radix := by
    omega
  rw [w.nat_eq_of_lt hphfit]
  simp only [bind_some]
  generalize w.hdCons (ph % w.radixRoot) (pl % w.radixRoot) = p at heq hplow ⊢
  generalize v / w.radixRoot * (g / w.radixRoot) + ph / w.radixRoot = q at heq hqfit ⊢
  clear hpl hph h1 h2 h3 h4 hR
  have hvg := mul_half_le hv hg
  -- whatever is stored, the bound on the carry follows from the equation
  have hcarry : ∀ d out : Nat, d < w.radix → d + (v * g + carry) = u + w.radix * out →
      out < w.radix := by
    intro d out hd h
    refine Nat.lt_of_mul_lt_mul_left (a := w.radix) ?_
    omega
  rw [w.long_eq (by omega)]
  simp only [bind_some]
  split
  · rw [w.nat_eq_of_lt hqfit]
    have hd : ((u : Int) - p + w.radix).toNat < w.radix := by omega
    have hval : ((u : Int) - p + w.radix).toNat + (v * g + carry)
        = u + w.radix * (q + 1) := by
      rw [Nat.mul_add]
      omega
    exact ⟨_, _, rfl, hd, hcarry _ _ hd hval, hval⟩
  · rw [w.nat_eq_of_lt (by omega)]
    have hd : ((u : Int) - p).toNat < w.radix := by omega
    have hval : ((u : Int) - p).toNat + (v * g + carry) = u + w.radix * q := by omega
    exact ⟨_, _, rfl, hd, hcarry _ _ hd hval, hval⟩

theorem mulSubDigits_spec {g : Nat} (hg : g < w.radix) :
    ∀ {vs us : List Nat} {carry : Nat}, us.length = vs.length → Below w.radix vs →
      Below w.radix us → carry < w.radix →
      ∃ us' out, mulSubDigits w g vs us carry = some (us', out) ∧ Below w.radix us'
        ∧ us'.length = us.length ∧ out < w.radix
        ∧ w.value us' + g * w.value vs + carry = w.value us + w.radix ^ us.length * out
  | [], [], carry, _, _, _, hc => ⟨[], carry, rfl, below_nil, rfl, hc, by simp⟩
  | v :: vs, u :: us, carry, hlen, hvs, hus, hc => by
      rw [below_cons] at hvs hus
      obtain ⟨d, out, hstep, hd, hout, heq⟩ := mulSubStep_spec hg hvs.1 hus.1 hc
      obtain ⟨us', out', hrec, hb, hl, ho, hval⟩ :=
        mulSubDigits_spec hg (by simpa using hlen) hvs.2 hus.2 hout
      rw [mulSubDigits, hstep]
      dsimp only [bind_eq_bind, bind_some]
      rw [hrec]
      refine ⟨d :: us', out', rfl, below_cons.mpr ⟨hd, hb⟩, by simp [hl], ho, ?_⟩
      have hval' := congrArg (w.radix * ·) hval
      simp only [value_cons, List.length_cons, Nat.pow_succ]
      linarith

theorem addBackDigits_spec : ∀ {vs us : List Nat} {carry : Nat}, us.length = vs.length →
    Below w.radix vs → Below w.radix us → carry ≤ 1 →
    ∃ us' out, addBackDigits w vs us carry = some (us', out) ∧ Below w.radix us'
      ∧ us'.length = us.length ∧ out ≤ 1
      ∧ w.value us' + w.radix ^ us.length * out = w.value vs + w.value us + carry
  | [], [], carry, _, _, _, hc => ⟨[], carry, rfl, below_nil, rfl, hc, by simp⟩
  | v :: vs, u :: us, carry, hlen, hvs, hus, hc => by
      rw [below_cons] at hvs hus
      rw [addBackDigits, w.nat_eq_of_lt (by omega)]
      dsimp only [bind_eq_bind, bind_some]
      have key : ∀ d c : Nat, d < w.radix → c ≤ 1 → d + w.radix * c = v + u + carry →
          ∃ us' out, addBackDigits w vs us c = some (us', out) ∧ Below w.radix (d :: us')
            ∧ (d :: us').length = (u :: us).length ∧ out ≤ 1
            ∧ w.value (d :: us') + w.radix ^ (u :: us).length * out
              = w.value (v :: vs) + w.value (u :: us) + carry := by
        intro d c hd hc' h
        obtain ⟨us', out, hrec, hb, hl, ho, hval⟩ :=
          addBackDigits_spec (by simpa using hlen) hvs.2 hus.2 hc'
        refine ⟨us', out, hrec, below_cons.mpr ⟨hd, hb⟩, by simp [hl], ho, ?_⟩
        simp only [value_cons, List.length_cons, Nat.pow_succ]
        have := congrArg (w.radix * ·) hval
        nlinarith
      split
      · rename_i h
        obtain ⟨us', out, hrec, hrest⟩ := key (v + u + carry) 0 h (by omega) (by omega)
        rw [hrec]
        exact ⟨_, _, rfl, hrest⟩
      · obtain ⟨us', out, hrec, hrest⟩ := key (v + u + carry - w.radix) 1 (by omega)
          (by omega) (by omega)
        rw [hrec]
        exact ⟨_, _, rfl, hrest⟩

/-- **From a guess that is right or one too large to the exact quotient digit.** The
window is left holding the remainder. -/
theorem bignumDivideSubtract_spec {vs us : List Nat} {top g : Nat}
    (hlen : us.length = vs.length) (hvs : Below w.radix vs) (hus : Below w.radix us)
    (htop : top < w.radix) (hg : g < w.radix) (hV : 0 < w.value vs)
    (hge : (w.value us + w.radix ^ us.length * top) / w.value vs ≤ g)
    (hle : g ≤ (w.value us + w.radix ^ us.length * top) / w.value vs + 1) :
    ∃ us' top', bignumDivideSubtract w vs g us top
        = some ((w.value us + w.radix ^ us.length * top) / w.value vs, us', top')
      ∧ Below w.radix us' ∧ us'.length = us.length ∧ top' < w.radix
      ∧ w.value us' + w.radix ^ us.length * top'
        = (w.value us + w.radix ^ us.length * top) % w.value vs := by
  have hVlt : w.value vs < w.radix ^ us.length := hlen ▸ value_lt hvs
  generalize hU : w.value us + w.radix ^ us.length * top = U at hge hle ⊢
  have hdm := Nat.div_add_mod' U (w.value vs)
  have hml := Nat.mod_lt U hV
  generalize hq : U / w.value vs = q at hge hle hdm ⊢
  generalize hm : U % w.value vs = m at hdm hml ⊢
  -- a result whose value is `U` less `g` times the denominator has `g` as its quotient
  have exact_of : ∀ X : Nat, X + g * w.value vs = U → g = q ∧ X = m := by
    intro X hX
    have hgq : g = q := by
      have : g ≤ q := by
        rw [← hq, Nat.le_div_iff_mul_le hV]
        omega
      omega
    subst hgq
    exact ⟨rfl, by omega⟩
  unfold bignumDivideSubtract
  split
  · rename_i h0
    subst h0
    obtain ⟨rfl, hX⟩ := exact_of U (by omega)
    exact ⟨us, top, rfl, hus, rfl, htop, by omega⟩
  obtain ⟨us', c, hmul, hb, hl, hc, hval⟩ := mulSubDigits_spec hg hlen hvs hus w.radix_pos
  have hus'lt : w.value us' < w.radix ^ us.length := hl ▸ value_lt hb
  rw [hmul]
  dsimp only [bind_eq_bind, bind_some]
  split
  · rename_i h0
    subst h0
    obtain ⟨rfl, hX⟩ := exact_of (w.value us' + w.radix ^ us.length * top) (by omega)
    exact ⟨us', top, rfl, hb, hl, htop, hX⟩
  have hlim := w.longLimit_eq
  rw [w.long_eq (by omega)]
  dsimp only [bind_some]
  split
  · have hct : c ≤ top := by omega
    have hmulsub : w.radix ^ us.length * (top - c) + w.radix ^ us.length * c
        = w.radix ^ us.length * top := by
      rw [← Nat.mul_add, Nat.sub_add_cancel hct]
    obtain ⟨rfl, hX⟩ :=
      exact_of (w.value us' + w.radix ^ us.length * (top - c)) (by omega)
    refine ⟨us', _, rfl, hb, hl, by omega, ?_⟩
    rw [show ((top : Int) - c).toNat = top - c by omega]
    exact hX
  · -- one too large: the borrow shows it, and adding the denominator back repairs it
    obtain ⟨us'', c2, hadd, hb2, hl2, hc2, hval2⟩ :=
      addBackDigits_spec (w := w) (by omega) hvs hb (Nat.zero_le 1)
    have hus''lt : w.value us'' < w.radix ^ us.length := by
      have := value_lt hb2
      rwa [hl2, hl] at this
    rw [hl] at hval2
    obtain ⟨k, hk⟩ : ∃ k, c = top + 1 + k := ⟨c - (top + 1), by omega⟩
    have hcexp : w.radix ^ us.length * c = w.radix ^ us.length * top
        + w.radix ^ us.length + w.radix ^ us.length * k := by
      rw [hk]; ring
    have hgq : g = q + 1 := by
      by_contra hne
      have hgq : g = q := by omega
      subst hgq
      omega
    subst hgq
    have hqm : (q + 1) * w.value vs = q * w.value vs + w.value vs := by ring
    have hkc : c2 = 1 ∧ k = 0 := by
      rcases Nat.eq_zero_or_pos k with hk0 | hk0
      · by_contra hne
        have : c2 = 0 := by omega
        subst this
        omega
      · have h1 : w.radix ^ us.length ≤ w.radix ^ us.length * k :=
          Nat.le_mul_of_pos_right _ hk0
        omega
    obtain ⟨rfl, rfl⟩ := hkc
    rw [hadd]
    dsimp only [bind_some]
    have htop' : ((top : Int) - c + w.radix).toNat = w.radix - 1 := by omega
    rw [if_pos rfl, htop', w.nat_eq_of_lt (by omega)]
    dsimp only [bind_some]
    rw [if_neg (by omega)]
    refine ⟨us'', _, rfl, hb2, by omega, by omega, ?_⟩
    rw [show w.radix - 1 + 1 - w.radix = 0 by omega]
    omega

/-! ## One window, and all of them -/

theorem value_leading {l : List Nat} {n : Nat} (hn : l.length = n + 1) :
    w.value l = w.value (l.take n) + w.radix ^ n * l.getD n 0 := by
  have h := ofDigits_take_drop (b := w.radix) l n (by omega)
  change w.value l = w.value _ + _ * w.value _ at h
  rw [List.drop_eq_getElem_cons (by omega), List.drop_eq_nil_of_le (by omega),
    value_cons, ← List.getD_eq_getElem l 0 (by omega)] at h
  exact h

theorem value_two_leading {l : List Nat} {n : Nat} (hl : Below w.radix l)
    (hn : l.length = n) (h2 : 2 ≤ n) :
    ∃ low, w.value l
        = low + w.radix ^ (n - 2) * (l.getD (n - 1) 0 * w.radix + l.getD (n - 2) 0)
      ∧ low < w.radix ^ (n - 2) := by
  subst hn
  have hdrop : l.drop (l.length - 2) = [l.getD (l.length - 2) 0, l.getD (l.length - 1) 0] := by
    rw [List.drop_eq_getElem_cons (by omega), List.drop_eq_getElem_cons (by omega),
      List.getD_eq_getElem _ _ (by omega), List.getD_eq_getElem _ _ (by omega),
      List.drop_eq_nil_of_le (by omega)]
    congr 3
    omega
  have htake : (l.take (l.length - 2)).length = l.length - 2 := by
    rw [List.length_take]
    omega
  refine ⟨w.value (l.take (l.length - 2)), ?_, ?_⟩
  · have := ofDigits_take_drop (b := w.radix) l (l.length - 2) (by omega)
    change w.value l = _ + _ * w.value _ at this
    rw [this, hdrop, value_cons, value_cons, value_nil]
    change w.value _ + _ = _
    ring
  · have := value_lt (hl.take (l.length - 2))
    rwa [htake] at this

/-- **One window.** -/
theorem normalizedStep_spec {vs us : List Nat} {top : Nat} (h2 : 2 ≤ vs.length)
    (hlen : us.length = vs.length) (hvs : Below w.radix vs) (hus : Below w.radix us)
    (htop : top < w.radix) (hnorm : w.radix ≤ 2 * vs.getD (vs.length - 1) 0)
    (hUV : w.value us + w.radix ^ us.length * top < w.radix * w.value vs) :
    ∃ us' top', normalizedStep w vs us top
        = some ((w.value us + w.radix ^ us.length * top) / w.value vs, us', top')
      ∧ Below w.radix us' ∧ us'.length = us.length ∧ top' < w.radix
      ∧ w.value us' + w.radix ^ us.length * top'
        = (w.value us + w.radix ^ us.length * top) % w.value vs
      ∧ (w.value us + w.radix ^ us.length * top) / w.value vs < w.radix := by
  obtain ⟨vlow, hV, hvlow⟩ := value_two_leading hvs rfl h2
  obtain ⟨ulow, hU, hulow⟩ := value_two_leading hus hlen h2
  have hpow : w.radix ^ us.length
      = w.radix ^ (vs.length - 2) * (w.radix * w.radix) := by
    rw [hlen, ← Nat.pow_two, ← Nat.pow_add, Nat.sub_add_cancel h2]
  have hS : 0 < w.radix ^ (vs.length - 2) := Nat.pow_pos w.radix_pos
  have hv1 := hvs.getD w.radix_pos (vs.length - 1)
  have hv2 := hvs.getD w.radix_pos (vs.length - 2)
  have hu1 := hus.getD w.radix_pos (vs.length - 1)
  have hcl := hus.getD w.radix_pos (vs.length - 2)
  have hVpos : 0 < w.value vs := by
    by_contra h0
    rw [show w.value vs = 0 by omega] at hUV
    omega
  obtain ⟨g, hguess, hg, hge, hle⟩ := @normalizedGuess_spec w
    (vs.getD (vs.length - 1) 0) (vs.getD (vs.length - 2) 0) top
    (us.getD (vs.length - 1) 0) (us.getD (vs.length - 2) 0)
    (w.radix ^ (vs.length - 2)) (w.value us + w.radix ^ us.length * top)
    (w.value vs) hv1 hnorm hv2 hu1 hcl hS
    (by rw [Nat.mul_comm]; omega) (by rw [Nat.add_mul, Nat.mul_comm]; omega)
    (by nlinarith) (by nlinarith) hUV
  obtain ⟨us', top', hsub, hb, hl, ht, hval⟩ :=
    bignumDivideSubtract_spec hlen hvs hus htop hg hVpos hge hle
  refine ⟨us', top', ?_, hb, hl, ht, hval, by omega⟩
  unfold normalizedStep
  dsimp only
  rw [hguess]
  exact hsub

/-- The leading `n` digits of `us` are below the denominator, so that its first window is
in range. -/
def LeadingBelow (w : Word) (vs us : List Nat) : Prop :=
  w.value (us.drop (us.length - vs.length)) < w.value vs

/-- **Every window.** What is left in `u` is the remainder, over as many digits as `u` had. -/
theorem bignumDivideUnsignedNormalized_spec {vs : List Nat} (h2 : 2 ≤ vs.length)
    (hvs : Below w.radix vs) (hnorm : w.radix ≤ 2 * vs.getD (vs.length - 1) 0) :
    ∀ {us : List Nat}, vs.length ≤ us.length → Below w.radix us → LeadingBelow w vs us →
      ∃ qs us', bignumDivideUnsignedNormalized w vs us = some (qs, us')
        ∧ Below w.radix qs ∧ qs.length = us.length - vs.length
        ∧ Below w.radix us' ∧ us'.length = us.length
        ∧ w.value qs = w.value us / w.value vs ∧ w.value us' = w.value us % w.value vs
  | [], hlen, _, _ => by rw [List.length_nil] at hlen; omega
  | u :: us, hlen, hus, hlead => by
      rw [below_cons] at hus
      have hVpos : 0 < w.value vs := Nat.lt_of_le_of_lt (Nat.zero_le _) hlead
      rw [bignumDivideUnsignedNormalized]
      split
      · -- no window left: all of `u` is below the denominator
        have hl : (u :: us).length = vs.length := by simp only [List.length_cons] at *; omega
        have hlt : w.value (u :: us) < w.value vs := by
          unfold LeadingBelow at hlead
          rwa [hl, Nat.sub_self] at hlead
        exact ⟨[], u :: us, rfl, below_nil, by simp [hl], below_cons.mpr hus, rfl,
          by rw [Nat.div_eq_of_lt hlt, value_nil], by rw [Nat.mod_eq_of_lt hlt]⟩
      · have hlong' : vs.length ≤ us.length := by omega
        have hlead' : LeadingBelow w vs us := by
          unfold LeadingBelow at hlead ⊢
          rwa [List.length_cons, Nat.sub_add_comm hlong'] at hlead
        obtain ⟨qs, rest, hrec, hqs, hql, hrest, hrl, hqv, hrv⟩ :=
          bignumDivideUnsignedNormalized_spec h2 hvs hnorm hlong' hus.2 hlead'
        rw [hrec]
        dsimp only [bind_eq_bind, bind_some]
        have hmod := Nat.mod_lt (w.value us) hVpos
        have hVlt := value_lt hvs
        have hrn : vs.length ≤ rest.length := by omega
        -- what the earlier windows left is a remainder, so the digits above it are zero
        have hsplit := ofDigits_take_drop (b := w.radix) rest vs.length hrn
        change w.value rest = w.value _ + _ * w.value _ at hsplit
        have hhigh : w.value (rest.drop vs.length) = 0 := by
          by_contra hne
          have : w.radix ^ vs.length
              ≤ w.radix ^ vs.length * w.value (rest.drop vs.length) :=
            Nat.le_mul_of_pos_right _ (Nat.pos_of_ne_zero hne)
          omega
        rw [hhigh, Nat.mul_zero, Nat.add_zero] at hsplit
        generalize hwin : u :: rest.take vs.length = window
        have hwb : Below w.radix window := by
          rw [← hwin]
          exact below_cons.mpr ⟨hus.1, hrest.take _⟩
        have hwl : window.length = vs.length + 1 := by
          rw [← hwin, List.length_cons, List.length_take]
          omega
        have hwv : w.value (window.take vs.length)
            + w.radix ^ (window.take vs.length).length * window.getD vs.length 0
            = w.value us % w.value vs * w.radix + u := by
          rw [List.length_take, Nat.min_eq_left (by omega), ← value_leading hwl, ← hwin,
            value_cons, ← hsplit, hrv]
          ring
        have hwt : (window.take vs.length).length = vs.length := by
          rw [List.length_take]
          omega
        obtain ⟨low, top, hstep, hlow, hll, htop, hval, hq⟩ := @normalizedStep_spec w
          _ _ (window.getD vs.length 0) h2 hwt hvs (hwb.take _)
          (hwb.getD w.radix_pos _) hnorm (by
            rw [hwv, Nat.mul_comm w.radix, Nat.add_comm]
            exact add_mul_lt hus.1 hmod)
        rw [hwv] at hstep hval hq
        rw [hstep]
        obtain ⟨hbq, hbr⟩ := bring_down (b := w.radix) (d := u) (x := w.value us) hVpos
        refine ⟨_, _, rfl, below_cons.mpr ⟨hq, hqs⟩, by simp only [List.length_cons]; omega,
          ?_, ?_, ?_, ?_⟩
        · exact below_append.mpr ⟨hlow, below_cons.mpr ⟨htop, hrest.drop _⟩⟩
        · simp only [List.length_append, List.length_cons, List.length_drop]
          omega
        · rw [value_cons, value_cons, hqv, hbq]
        · rw [value_append, value_cons, hhigh, Nat.mul_zero, Nat.add_zero, value_cons, hbr,
            hll, hval]

theorem digitsLength_le {x y : Nat} (h : y ≤ x) :
    (Nat.digits w.radix y).length ≤ (Nat.digits w.radix x).length :=
  Nat.le_length_digits_le w.radix y x h

theorem leadingBelow_of_top {vs lower : List Nat} {top : Nat} (h1 : 1 ≤ vs.length)
    (hlow : Below w.radix lower) (hlen : vs.length ≤ lower.length + 1)
    (htop : top < vs.getD (vs.length - 1) 0) : LeadingBelow w vs (lower ++ [top]) := by
  have hV := value_leading (w := w) (l := vs) (n := vs.length - 1) (by omega)
  unfold LeadingBelow
  have hdrop : (lower ++ [top]).drop ((lower ++ [top]).length - vs.length)
      = lower.drop (lower.length + 1 - vs.length) ++ [top] := by
    rw [List.length_append, List.length_singleton, List.drop_append_of_le_length (by omega)]
  have hlt := value_lt (hlow.drop (lower.length + 1 - vs.length))
  rw [hdrop, value_append, value_cons, value_nil, Nat.mul_zero, hV]
  have hl : (lower.drop (lower.length + 1 - vs.length)).length = vs.length - 1 := by
    rw [List.length_drop]
    omega
  rw [hl] at hlt ⊢
  have : w.radix ^ (vs.length - 1) * (top + 1)
      ≤ w.radix ^ (vs.length - 1) * vs.getD (vs.length - 1) 0 :=
    Nat.mul_le_mul_left _ htop
  rw [Nat.mul_add] at this
  dsimp only [Nat.add_zero]
  omega

/-- **Division by two digits or more.** -/
theorem bignumDivideUnsignedLargeDenominator_ofInt {qn rn : Bool} {a b : Int}
    (hyx : b.natAbs < a.natAbs) (hy : w.radix ≤ b.natAbs) :
    bignumDivideUnsignedLargeDenominator w (ofInt w a) (ofInt w b) qn rn
      = some (ofSign w qn (a.natAbs / b.natAbs), ofSign w rn (a.natAbs % b.natAbs)) := by
  unfold ofInt
  generalize a.natAbs = x at hyx ⊢
  generalize b.natAbs = y at hyx hy ⊢
  have hB := w.radix_pos
  have hypos : 0 < y := by omega
  have h2 : 2 ≤ (Nat.digits w.radix y).length := by
    have := (Nat.lt_digits_length_iff (k := 1) w.one_lt_radix y).mpr (by simpa using hy)
    omega
  have hbx := below_digits w.one_lt_radix x
  have hby := below_digits w.one_lt_radix y
  have hlen := digitsLength_le (w := w) hyx.le
  generalize hlead : (Nat.digits w.radix y).getD ((Nat.digits w.radix y).length - 1) 0 = v
  have hvlt : v < w.radix := hlead ▸ hby.getD hB _
  have hvpos : 0 < v := by
    rw [← hlead, List.getD_eq_getElem _ _ (by omega), ← List.getLast_eq_getElem
      (digits_ne_nil hypos)]
    exact Nat.pos_of_ne_zero (Nat.getLast_digit_ne_zero _ (by omega))
  obtain ⟨s, hshift, hs, hb, hnorm⟩ := normalizeShift_digit hvlt hvpos
  unfold bignumDivideUnsignedLargeDenominator Bignum.ref Bignum.length
  rw [hlead, hshift]
  simp only [show 1 < (Nat.digits w.radix y).length by omega, guard, if_true,
    bind_eq_bind, Option.pure_def, bind_some]
  split
  · -- already normalised
    rename_i h0
    rw [h0, Nat.pow_zero, Nat.mul_one, ← hlead] at hnorm
    obtain ⟨qs, us, hdiv, hqs, hql, hus, hul, hqv, huv⟩ :=
      @bignumDivideUnsignedNormalized_spec w _ h2 hby hnorm
        (Nat.digits w.radix x ++ [0]) (by simp; omega)
        (below_append.mpr ⟨hbx, by simpa using hB⟩)
        (leadingBelow_of_top (by omega) hbx (by omega) (by rw [hlead]; exact hvpos))
    have hxv : w.value (Nat.digits w.radix x ++ [0]) = x := by simp
    rw [hxv, value_digits] at hqv huv
    rw [hdiv]
    dsimp only [bind_some]
    have hqne : qs ≠ [] := by
      refine List.length_pos_iff.mp ?_
      rw [hql, List.length_append, List.length_singleton]
      omega
    have hune : us ≠ [] := ne_nil_of_length_eq hul (by simp)
    rw [trim_eq hqs hqne, trim_eq hus hune, hqv, huv]
  · obtain ⟨lower, top, heq, hlow, hll, htop, hlv⟩ :=
      bignumDestructiveNormalizationLonger_spec hs.le hbx
    rw [value_digits] at hlv
    have hpow2 : 2 ^ s * 2 ≤ w.radix := by
      rw [← Nat.pow_succ]
      exact Nat.pow_le_pow_right (by decide) hs
    obtain ⟨m, hm⟩ : ∃ m, (Nat.digits w.radix y).length = m + 1 :=
      ⟨(Nat.digits w.radix y).length - 1, by omega⟩
    have hyv := value_leading (w := w) hm
    rw [show (Nat.digits w.radix y).getD m 0 = v by rw [← hlead, hm]; rfl] at hyv
    have hylow := value_lt (hby.take m)
    rw [List.length_take, Nat.min_eq_left (by omega)] at hylow
    rw [value_digits] at hyv
    have hv1 : (v + 1) * 2 ^ s ≤ w.radix := by
      have hB' := radix_split hs.le
      rw [hB'] at hb ⊢
      exact Nat.mul_le_mul_right _ (Nat.lt_of_mul_lt_mul_right hb)
    have hfit : y * 2 ^ s < w.radix ^ (m + 1) := by
      calc y * 2 ^ s < (w.radix ^ m * (v + 1)) * 2 ^ s := by
            refine Nat.mul_lt_mul_of_pos_right ?_ (Nat.two_pow_pos s)
            rw [Nat.mul_add]
            omega
        _ = w.radix ^ m * ((v + 1) * 2 ^ s) := by ring
        _ ≤ w.radix ^ m * w.radix := Nat.mul_le_mul_left _ hv1
        _ = w.radix ^ (m + 1) := (Nat.pow_succ _ _).symm
    obtain ⟨vs, hnv, hbv, hvl, hvv⟩ :=
      bignumDestructiveNormalization_spec hs.le hby (by rw [value_digits, hm]; exact hfit)
    rw [value_digits] at hvv
    -- shifting the denominator shifts its leading digit
    have hlead' : v * 2 ^ s ≤ vs.getD (vs.length - 1) 0 := by
      have h := value_leading (w := w) (hvl.trans hm)
      have hlow' := value_lt (hbv.take m)
      rw [List.length_take, Nat.min_eq_left (by omega)] at hlow'
      rw [hvl, hm, Nat.add_sub_cancel]
      by_contra hlt
      have h1 : w.radix ^ m * (vs.getD m 0 + 1) ≤ w.radix ^ m * (v * 2 ^ s) :=
        Nat.mul_le_mul_left _ (by omega)
      have h2 : w.radix ^ m * (v * 2 ^ s) ≤ y * 2 ^ s := by
        rw [hyv, ← Nat.mul_assoc]
        exact Nat.mul_le_mul_right _ (Nat.le_add_left _ _)
      rw [Nat.mul_add] at h1
      omega
    have htop' : top < vs.getD (vs.length - 1) 0 := by
      omega
    have hbu : Below w.radix (lower ++ [top]) := by
      simpa using ⟨hlow, by omega⟩
    obtain ⟨qs, us, hdiv, hqs, hql, hus, hul, hqv, huv⟩ :=
      @bignumDivideUnsignedNormalized_spec w _ (by omega) hbv (by omega)
        (lower ++ [top]) (by simp; omega) hbu
        (leadingBelow_of_top (by omega) hlow (by omega) htop')
    rw [hlv, hvv, Nat.mul_div_mul_right _ _ (Nat.two_pow_pos s)] at hqv
    rw [hlv, hvv, Nat.mul_mod_mul_right] at huv
    obtain ⟨ts, hun, hbt, htl, htv⟩ := bignumDestructiveUnnormalization_spec hs.le hus huv
    rw [heq, hnv]
    dsimp only [bind_some]
    rw [hdiv]
    dsimp only [bind_some]
    rw [hun]
    dsimp only [bind_some]
    have hqne : qs ≠ [] := by
      refine List.length_pos_iff.mp ?_
      rw [hql, List.length_append, List.length_singleton]
      omega
    have htne : ts ≠ [] := ne_nil_of_length_eq (htl.trans hul) (by simp)
    rw [trim_eq hqs hqne, trim_eq hbt htne, hqv, htv]

/-! ## Signed quotient and remainder -/

theorem ofSign_tdiv {a b : Int} (ha : a ≠ 0) (hb : b ≠ 0) :
    ofSign w (if decide (b < 0) then !decide (a < 0) else decide (a < 0))
        (a.natAbs / b.natAbs) = ofInt w (a.tdiv b) := by
  unfold ofSign
  congr 1
  obtain ⟨n, rfl | rfl⟩ := a.eq_nat_or_neg <;> obtain ⟨m, rfl | rfl⟩ := b.eq_nat_or_neg
  · simp
  · have : 0 < m := by omega
    simp [this]
  · have : 0 < n := by omega
    simp [this]
  · have : 0 < n := by omega
    have : 0 < m := by omega
    simp [*]

theorem ofSign_tmod {a b : Int} (ha : a ≠ 0) :
    ofSign w (decide (a < 0)) (a.natAbs % b.natAbs) = ofInt w (a.tmod b) := by
  unfold ofSign
  congr 1
  obtain ⟨n, rfl | rfl⟩ := a.eq_nat_or_neg <;> obtain ⟨m, rfl | rfl⟩ := b.eq_nat_or_neg
  · simp [← Int.ofNat_tmod]
  · simp [← Int.ofNat_tmod]
  · have : 0 < n := by omega
    simp [← Int.ofNat_tmod, this]
  · have : 0 < n := by omega
    simp [← Int.ofNat_tmod, this]

theorem radix_le_of_length_ne_one {b : Int} (hb : b ≠ 0)
    (h : (ofInt w b).length ≠ 1) : w.radix ≤ b.natAbs := by
  by_contra hlt
  have hnz : b.natAbs ≠ 0 := by omega
  refine h ?_
  unfold Bignum.length ofInt
  rw [Nat.digits_of_lt w.radix b.natAbs hnz (by omega)]
  rfl

theorem bignumDivide_ofInt (a b : Int) :
    bignumDivide w (ofInt w a) (ofInt w b)
      = if b = 0 then some none
        else some (some (ofInt w (a.tdiv b), ofInt w (a.tmod b))) := by
  unfold bignumDivide
  simp only [zeroP_ofInt, decide_eq_true_eq]
  split
  · rfl
  rename_i hb
  split
  · rename_i ha
    rw [ha, Int.zero_tdiv, Int.zero_tmod]
  rename_i ha
  have hna : 0 < a.natAbs := Int.natAbs_pos.mpr ha
  have hnb : 0 < b.natAbs := Int.natAbs_pos.mpr hb
  rw [← ofSign_tdiv ha hb, ← ofSign_tmod ha]
  have hcmp : bignumCompareUnsigned (ofInt w a) (ofInt w b) = _ :=
    bignumCompareUnsigned_eq
  rw [hcmp]
  rcases lt_trichotomy a.natAbs b.natAbs with h | h | h
  · rw [if_pos h, Nat.div_eq_of_lt h, Nat.mod_eq_of_lt h, ← ofInt_eq_ofSign]
    simp [ofSign]
  · rw [h, Nat.div_self hnb, ofSign_eq_of_pos Nat.one_pos, Nat.digits_of_lt w.radix 1 (by decide) w.one_lt_radix]
    simp [ofSign, ofInt, makeOne, makeZero]
  · rw [if_neg (by omega), if_pos h]
    dsimp only
    generalize hq : (if decide (b < 0) then !decide (a < 0) else decide (a < 0)) = qn
    have hqn : (if (ofInt w b).negative then !(ofInt w a).negative
        else (ofInt w a).negative) = qn := hq
    rw [hqn]
    by_cases h1 : (ofInt w b).length = 1
    · obtain ⟨href, _, hlt⟩ := ref_ofInt_of_length_one h1
      rw [if_pos h1, href]
      split
      · rename_i hone
        rw [hone, Nat.div_one, ofSign_eq_of_pos hna]
        simp [ofSign, Bignum.newSign, ofInt, makeZero]
      · split
        · rename_i hroot
          rw [bignumDivideUnsignedSmallDenominator_ofInt ha (by omega) hroot]
          rfl
        · rw [bignumDivideUnsignedMediumDenominator_ofInt ha hnb hlt]
          rfl
    · rw [if_neg h1, bignumDivideUnsignedLargeDenominator_ofInt h (radix_le_of_length_ne_one hb h1)]
      rfl

theorem bignumQuotient_ofInt (a b : Int) :
    bignumQuotient w (ofInt w a) (ofInt w b)
      = if b = 0 then some none else some (some (ofInt w (a.tdiv b))) := by
  unfold bignumQuotient
  simp only [zeroP_ofInt, decide_eq_true_eq]
  split
  · rfl
  rename_i hb
  split
  · rename_i ha; rw [ha, Int.zero_tdiv]
  rename_i ha
  have hna : 0 < a.natAbs := Int.natAbs_pos.mpr ha
  have hnb : 0 < b.natAbs := Int.natAbs_pos.mpr hb
  rw [← ofSign_tdiv ha hb]
  have hcmp : bignumCompareUnsigned (ofInt w a) (ofInt w b) = _ :=
    bignumCompareUnsigned_eq
  rw [hcmp]
  rcases lt_trichotomy a.natAbs b.natAbs with h | h | h
  · rw [if_pos h, Nat.div_eq_of_lt h]
    simp [ofSign]
  · rw [if_neg (by omega), if_neg (by omega), h, Nat.div_self hnb,
      ofSign_eq_of_pos Nat.one_pos, Nat.digits_of_lt w.radix 1 (by decide) w.one_lt_radix]
    rfl
  · rw [if_neg (by omega), if_pos h]
    dsimp only
    generalize hq : (if decide (b < 0) then !decide (a < 0) else decide (a < 0)) = qn
    have hqn : (if (ofInt w b).negative then !(ofInt w a).negative
        else (ofInt w a).negative) = qn := hq
    rw [hqn]
    by_cases h1 : (ofInt w b).length = 1
    · obtain ⟨href, _, hlt⟩ := ref_ofInt_of_length_one h1
      rw [if_pos h1, href]
      split
      · rename_i hone
        rw [hone, Nat.div_one, ofSign_eq_of_pos hna]
        rfl
      · split
        · rename_i hroot
          rw [bignumDivideUnsignedSmallDenominator_ofInt ha (by omega) hroot]
          rfl
        · rw [bignumDivideUnsignedMediumDenominator_ofInt ha hnb hlt]
          rfl
    · rw [if_neg h1, bignumDivideUnsignedLargeDenominator_ofInt h (radix_le_of_length_ne_one hb h1)]
      rfl

theorem and_pred_eq_mod {x d : Nat} (hd : 0 < d) (hpow : d &&& (d - 1) = 0) :
    (d - 1) &&& x = x % d := by
  obtain ⟨k, rfl⟩ := (Nat.and_sub_one_eq_zero_iff_isPowerOfTwo (by omega)).mp hpow
  rw [Nat.and_comm, Nat.and_two_pow_sub_one_eq_mod]

theorem bignumRemainder_ofInt (a b : Int) :
    bignumRemainder w (ofInt w a) (ofInt w b)
      = if b = 0 then some none else some (some (ofInt w (a.tmod b))) := by
  unfold bignumRemainder
  simp only [zeroP_ofInt, decide_eq_true_eq]
  split
  · rfl
  rename_i hb
  split
  · rename_i ha; rw [ha, Int.zero_tmod]
  rename_i ha
  have hna : 0 < a.natAbs := Int.natAbs_pos.mpr ha
  have hnb : 0 < b.natAbs := Int.natAbs_pos.mpr hb
  rw [← ofSign_tmod ha]
  have hcmp : bignumCompareUnsigned (ofInt w a) (ofInt w b) = _ :=
    bignumCompareUnsigned_eq
  rw [hcmp]
  rcases lt_trichotomy a.natAbs b.natAbs with h | h | h
  · rw [if_pos h, Nat.mod_eq_of_lt h, ← ofInt_eq_ofSign]
  · rw [h]
    simp [ofSign]
  · rw [if_neg (by omega), if_pos h]
    dsimp only
    by_cases h1 : (ofInt w b).length = 1
    · obtain ⟨href, _, hlt⟩ := ref_ofInt_of_length_one h1
      have hmodlt := Nat.mod_lt a.natAbs hnb
      rw [if_pos h1, href]
      split
      · -- the low digit alone decides the remainder modulo a power of two
        rename_i hpow
        have hdvd : b.natAbs ∣ w.radix := by
          obtain ⟨k, hk⟩ := (Nat.and_sub_one_eq_zero_iff_isPowerOfTwo (by omega)).mp hpow
          rw [hk] at hlt ⊢
          exact Nat.pow_dvd_pow 2 ((Nat.pow_lt_pow_iff_right (by decide)).mp hlt).le
        have hlow : (ofInt w a).ref 0 = a.natAbs % w.radix := by
          unfold Bignum.ref ofInt
          rw [Nat.getD_digits _ _ w.one_lt_radix, Nat.pow_zero, Nat.div_one]
        rw [and_pred_eq_mod hnb hpow, hlow, Nat.mod_mod_of_dvd _ hdvd,
          digitToBignum_eq (w := w) (by omega)]
        rfl
      · rename_i hpow
        have hone : 1 < b.natAbs := by
          by_contra hle
          rw [show b.natAbs = 1 by omega] at hpow
          exact hpow rfl
        split
        · rename_i hroot
          rw [bignumRemainderUnsignedSmallDenominator_ofInt hone hroot]
          rfl
        · rw [bignumDivideUnsignedMediumDenominator_ofInt ha hnb hlt]
          rfl
    · rw [if_neg h1, bignumDivideUnsignedLargeDenominator_ofInt h (radix_le_of_length_ne_one hb h1)]
      rfl

end MitScheme
