import MitScheme.Lib.TwosComplement
import MitScheme.Microcode.BignumBits
import MitScheme.Microcode.BignumProof

/-!
# Bitwise operations on bignums are those on bits

A loop over magnitudes computes one boolean function of the bits of two naturals. A complement of an
operand goes into that function, so the table of `DEFINE_BITWISE` is right if each of its four loops
computes the function with the complements of its signs in it.
-/

namespace MitScheme

open DigitList TwosComplement Bignum Option
open Int (bitwise lnot)

variable {w : Word}

theorem makeOne_true : makeOne true = ofInt w (-1) := by
  simp [makeOne, ofInt, Nat.digits_of_lt w.radix 1 (by decide) w.one_lt_radix]

theorem bignumBitwiseNot_ofInt (z : Int) :
    bignumBitwiseNot w (ofInt w z) = some (ofInt w (lnot z)) := by
  rw [bignumBitwiseNot, makeOne_true, bignumSubtract_ofInt, lnot_eq]

/-! ## Magnitudes -/

variable {f : Bool → Bool → Bool} {op : Nat → Nat → Nat} {p q : Int}

theorem bitwise_digit (hf : f false false = false) {x y : Nat}
    (hx : x < w.radix) (hy : y < w.radix) (m n : Nat) :
    Nat.bitwise f (x + w.radix * m) (y + w.radix * n)
      = Nat.bitwise f x y + w.radix * Nat.bitwise f m n :=
  bitwise_fields hf hx hy m n

theorem bitwise_lt_radix {x y : Nat} (hx : x < w.radix)
    (hy : y < w.radix) : Nat.bitwise f x y < w.radix :=
  Nat.bitwise_lt_two_pow hx hy

theorem bitwiseDigits_nil {f : Bool → Bool → Bool} (hf : f false false = false)
    {op : Nat → Nat → Nat} (hop : ∀ a b, op a b = Nat.bitwise f a b) :
    ∀ {xs : List Nat}, Below w.radix xs →
      Below w.radix (xs.map fun x => op x 0)
        ∧ w.value (xs.map fun x => op x 0) = Nat.bitwise f (w.value xs) 0
  | [], _ => ⟨by simp, by simp [Nat.bitwise]⟩
  | x :: xs, h => by
      obtain ⟨hx, hxs⟩ := below_cons.mp h
      obtain ⟨hbelow, hvalue⟩ := bitwiseDigits_nil hf hop hxs
      have hfields := bitwise_digit (w := w) hf hx w.radix_pos (w.value xs) 0
      rw [Nat.mul_zero] at hfields
      rw [List.map_cons, below_cons, value_cons, value_cons, hvalue, hfields, hop]
      exact ⟨⟨bitwise_lt_radix hx w.radix_pos, hbelow⟩, rfl⟩

theorem bitwiseDigits_spec {f : Bool → Bool → Bool} (hf : f false false = false)
    {op : Nat → Nat → Nat} (hop : ∀ a b, op a b = Nat.bitwise f a b) :
    ∀ {xs ys : List Nat}, ys.length ≤ xs.length → Below w.radix xs → Below w.radix ys →
      ∃ rs, bitwiseDigits op xs ys = some rs ∧ rs.length = xs.length ∧ Below w.radix rs
        ∧ w.value rs = Nat.bitwise f (w.value xs) (w.value ys)
  | xs, [], _, hxs, _ => by
      obtain ⟨hbelow, hvalue⟩ := bitwiseDigits_nil hf hop hxs
      exact ⟨_, by cases xs <;> rfl, by simp, hbelow, hvalue⟩
  | [], _ :: _, h, _, _ => absurd h (by simp)
  | x :: xs, y :: ys, h, hxs, hys => by
      obtain ⟨hx, hxs⟩ := below_cons.mp hxs
      obtain ⟨hy, hys⟩ := below_cons.mp hys
      obtain ⟨rs, heq, hlen, hbelow, hvalue⟩ :=
        bitwiseDigits_spec hf hop (Nat.le_of_succ_le_succ h) hxs hys
      refine ⟨op x y :: rs, ?_, by simp [hlen], ?_, ?_⟩
      · rw [bitwiseDigits, heq]
        rfl
      · rw [hop, below_cons]
        exact ⟨bitwise_lt_radix hx hy, hbelow⟩
      · rw [value_cons, value_cons, value_cons, hvalue, hop, bitwise_digit hf hx hy]

theorem bitwiseUnsigned_ofInt (hf : f false false = false) (hop : ∀ a b, op a b = Nat.bitwise f a b)
    (postop : Bignum → Option Bignum) (hp : 0 ≤ p) (hq : 0 ≤ q)
    (hlen : (ofInt w q).length ≤ (ofInt w p).length) :
    bitwiseUnsigned op postop (ofInt w p) (ofInt w q)
      = postop (ofInt w (bitwise f p q)) := by
  obtain ⟨rs, heq, hrs, hbelow, hvalue⟩ := @bitwiseDigits_spec w f hf op hop
    (Nat.digits w.radix p.natAbs) (Nat.digits w.radix q.natAbs) hlen
    (below_digits w.one_lt_radix _) (below_digits w.one_lt_radix _)
  have hbits : bitwise f p q = (Nat.bitwise f p.natAbs q.natAbs : Nat) := by
    rw [← bitwise_natCast hf, Int.natAbs_of_nonneg hp, Int.natAbs_of_nonneg hq]
  rw [value_digits, value_digits] at hvalue
  have htrim : trim ⟨false, rs⟩ = ofInt w (bitwise f p q) := by
    by_cases hne : rs = []
    · rw [hbits, ← hvalue, hne]
      exact ofInt_zero.symm
    · rw [trim_eq hbelow hne, hbits, hvalue, Bignum.ofSign, if_neg Bool.false_ne_true]
  change (bitwiseDigits op (Nat.digits w.radix p.natAbs) (Nat.digits w.radix q.natAbs)).bind _ = _
  rw [heq, bind_some, htrim]

theorem bitwiseUnsignedSwap_ofInt (hf : f false false = false) (hcomm : ∀ a b, f a b = f b a)
    (hop : ∀ a b, op a b = Nat.bitwise f a b) (postop : Bignum → Option Bignum)
    (hp : 0 ≤ p) (hq : 0 ≤ q) :
    bitwiseUnsignedSwap op postop (ofInt w p) (ofInt w q)
      = postop (ofInt w (bitwise f p q)) := by
  unfold bitwiseUnsignedSwap
  by_cases h : (ofInt w p).length < (ofInt w q).length
  · have hswap : bitwise f q p = bitwise f p q := by
      rw [bitwise_swap]
      exact congrArg (bitwise · p q) (funext fun a => funext fun b => hcomm b a)
    rw [if_pos h, ← hswap]
    exact bitwiseUnsigned_ofInt hf hop postop hq hp (Nat.le_of_lt h)
  · rw [if_neg h]
    exact bitwiseUnsigned_ofInt hf hop postop hp hq (Nat.le_of_not_lt h)

theorem bitwiseUnsignedCommute_ofInt (hf : f false false = false)
    {commuted : Nat → Nat → Nat} (hop : ∀ a b, op a b = Nat.bitwise f a b)
    (hcommuted : ∀ a b, commuted a b = Nat.bitwise (fun x y => f y x) a b)
    (postop : Bignum → Option Bignum) (hp : 0 ≤ p) (hq : 0 ≤ q) :
    bitwiseUnsignedCommute commuted op postop (ofInt w p) (ofInt w q)
      = postop (ofInt w (bitwise f p q)) := by
  unfold bitwiseUnsignedCommute
  split
  · rename_i h
    rw [bitwise_swap f p q]
    exact bitwiseUnsigned_ofInt (f := fun a b => f b a) hf hcommuted postop hq hp (Nat.le_of_lt h)
  · rename_i h
    exact bitwiseUnsigned_ofInt hf hop postop hp hq (Nat.le_of_not_lt h)

/-! ## The ten loops -/

/-- **A function on magnitudes computes a boolean function of their bits.** -/
def Computes (w : Word) (op : Bignum → Bignum → Option Bignum) (f : Bool → Bool → Bool) : Prop :=
  ∀ p q : Int, 0 ≤ p → 0 ≤ q →
    op (ofInt w p) (ofInt w q) = some (ofInt w (bitwise f p q))

theorem Computes.congr {op : Bignum → Bignum → Option Bignum} {g : Bool → Bool → Bool}
    (h : Computes w op f) (hfg : ∀ a b, f a b = g a b) : Computes w op g := by
  rw [← show f = g from funext fun a => funext fun b => hfg a b]
  exact h

theorem and_computes : Computes w bignumBitwiseAndUnsigned and :=
  fun _ _ hp hq => bitwiseUnsignedSwap_ofInt rfl Bool.and_comm (fun _ _ => rfl) some hp hq

theorem xor_computes : Computes w bignumBitwiseXorUnsigned xor :=
  fun _ _ hp hq => bitwiseUnsignedSwap_ofInt rfl Bool.xor_comm (fun _ _ => rfl) some hp hq

theorem ior_computes : Computes w bignumBitwiseIorUnsigned or :=
  fun _ _ hp hq => bitwiseUnsignedSwap_ofInt rfl Bool.or_comm (fun _ _ => rfl) some hp hq

theorem andc2_computes : Computes w bignumBitwiseAndc2Unsigned fun a b => a && !b :=
  fun _ _ hp hq => bitwiseUnsignedCommute_ofInt rfl (fun _ _ => rfl)
    (fun a b => by
      change Nat.ldiff b a = _
      refine Nat.eq_of_testBit_eq fun i => ?_
      rw [Nat.testBit_ldiff, Nat.testBit_bitwise rfl]) some hp hq

theorem andc1_computes : Computes w bignumBitwiseAndc1Unsigned fun a b => !a && b :=
  fun _ _ hp hq => bitwiseUnsignedCommute_ofInt rfl
    (fun a b => by
      change Nat.ldiff b a = _
      refine Nat.eq_of_testBit_eq fun i => ?_
      rw [Nat.testBit_ldiff, Nat.testBit_bitwise rfl, Bool.and_comm])
    (fun a b => by
      change Nat.ldiff a b = _
      refine Nat.eq_of_testBit_eq fun i => ?_
      rw [Nat.testBit_ldiff, Nat.testBit_bitwise rfl, Bool.and_comm]) some hp hq

theorem nor_computes : Computes w (bignumBitwiseNorUnsigned w) fun a b => !(a || b) := by
  intro p q hp hq
  refine (bitwiseUnsignedSwap_ofInt rfl Bool.or_comm (fun _ _ => rfl) _ hp hq).trans ?_
  rw [bignumBitwiseNot_ofInt, lnot_bitwise]

theorem eqv_computes : Computes w (bignumBitwiseEqvUnsigned w) fun a b => !(xor a b) := by
  intro p q hp hq
  refine (bitwiseUnsignedSwap_ofInt rfl Bool.xor_comm (fun _ _ => rfl) _ hp hq).trans ?_
  rw [bignumBitwiseNot_ofInt, lnot_bitwise]

theorem nand_computes : Computes w (bignumBitwiseNandUnsigned w) fun a b => !(a && b) := by
  intro p q hp hq
  refine (bitwiseUnsignedSwap_ofInt rfl Bool.and_comm (fun _ _ => rfl) _ hp hq).trans ?_
  rw [bignumBitwiseNot_ofInt, lnot_bitwise]

/-- **The table of `DEFINE_BITWISE` is right** if each loop computes the function with the
complements of its signs in it. -/
theorem defineBitwise_ofInt {x0 y0 : Option Bignum}
    {pp pn np nn : Bignum → Bignum → Option Bignum} (hpp : Computes w pp f)
    (hpn : Computes w pn fun a b => f a (!b)) (hnp : Computes w np fun a b => f (!a) b)
    (hnn : Computes w nn fun a b => f (!a) (!b))
    (hx0 : x0 = some (ofInt w (bitwise f p 0)))
    (hy0 : y0 = some (ofInt w (bitwise f 0 q))) :
    defineBitwise w x0 y0 pp pn np nn (ofInt w p) (ofInt w q)
      = some (ofInt w (bitwise f p q)) := by
  unfold defineBitwise
  simp only [zeroP_ofInt, decide_eq_true_eq]
  split
  · rename_i hp
    rw [hp]
    exact hy0
  split
  · rename_i hq
    rw [hq]
    exact hx0
  change (if (!decide (p < 0)) = true then if (!decide (q < 0)) = true then _ else _
    else if (!decide (q < 0)) = true then _ else _) = _
  simp only [bignumBitwiseNot_ofInt, bind_eq_bind, bind_some]
  have hlnot : ∀ z : Int, z < 0 → 0 ≤ lnot z := by
    intro z hz
    rw [lnot_eq]
    omega
  by_cases hp : p < 0
  · by_cases hq : q < 0
    · rw [if_neg (by simpa using hp), if_neg (by simpa using hq),
        hnn _ _ (hlnot p hp) (hlnot q hq), ← bitwise_lnot_left (fun a b => f a (!b)),
        ← bitwise_lnot_right, lnot_lnot, lnot_lnot]
    · rw [if_neg (by simpa using hp), if_pos (by simpa using hq), hnp _ _ (hlnot p hp) (by omega),
        ← bitwise_lnot_left, lnot_lnot]
  · by_cases hq : q < 0
    · rw [if_pos (by simpa using hp), if_neg (by simpa using hq), hpn _ _ (by omega) (hlnot q hq),
        ← bitwise_lnot_right, lnot_lnot]
    · rw [if_pos (by simpa using hp), if_pos (by simpa using hq), hpp _ _ (by omega) (by omega)]

theorem zero_right (h : ∀ a, f a false = false) (p : Int) :
    some makeZero = some (ofInt w (bitwise f p 0)) := by
  rw [bitwise_eq (z := 0) fun i => by rw [testBit_zero, h], ofInt_zero]

theorem self_right (h : ∀ a, f a false = a) (p : Int) :
    some (ofInt w p) = some (ofInt w (bitwise f p 0)) := by
  rw [bitwise_eq (z := p) fun i => by rw [testBit_zero, h]]

theorem not_right (h : ∀ a, f a false = !a) (p : Int) :
    bignumBitwiseNot w (ofInt w p) = some (ofInt w (bitwise f p 0)) := by
  rw [bignumBitwiseNot_ofInt,
    bitwise_eq (z := lnot p) fun i => by rw [testBit_zero, h, Int.testBit_lnot]]

theorem ones_right (h : ∀ a, f a false = true) (p : Int) :
    some (makeOne true) = some (ofInt w (bitwise f p 0)) := by
  rw [bitwise_eq (z := -1) fun i => by rw [testBit_zero, h, testBit_neg_one], makeOne_true]

theorem zero_left {r : Option Bignum}
    (h : r = some (ofInt w (bitwise (fun a b => f b a) q 0))) :
    r = some (ofInt w (bitwise f 0 q)) := by
  rw [bitwise_swap]
  exact h

/-! ## The ten operations -/

theorem bignumBitwiseAnd_ofInt (p q : Int) :
    bignumBitwiseAnd w (ofInt w p) (ofInt w q)
      = some (ofInt w (bitwise and p q)) :=
  defineBitwise_ofInt and_computes andc2_computes andc1_computes (nor_computes.congr (by decide))
    (zero_right (by decide) p) (zero_left (zero_right (by decide) q))

theorem bignumBitwiseAndc2_ofInt (p q : Int) :
    bignumBitwiseAndc2 w (ofInt w p) (ofInt w q)
      = some (ofInt w (bitwise (fun a b => a && !b) p q)) :=
  defineBitwise_ofInt andc2_computes (and_computes.congr (by decide))
    (nor_computes.congr (by decide)) (andc1_computes.congr (by decide))
    (self_right (by decide) p) (zero_left (zero_right (by decide) q))

theorem bignumBitwiseAndc1_ofInt (p q : Int) :
    bignumBitwiseAndc1 w (ofInt w p) (ofInt w q)
      = some (ofInt w (bitwise (fun a b => !a && b) p q)) :=
  defineBitwise_ofInt andc1_computes (nor_computes.congr (by decide))
    (and_computes.congr (by decide)) (andc2_computes.congr (by decide))
    (zero_right (by decide) p) (zero_left (self_right (by decide) q))

theorem orc2_computes : Computes w (bignumBitwiseOrc2Unsigned w) fun a b => a || !b := by
  intro p q _ _
  rw [bignumBitwiseOrc2Unsigned, bignumBitwiseAndc1_ofInt, bind_eq_bind, bind_some,
    bignumBitwiseNot_ofInt, lnot_bitwise]
  simp only [Bool.not_and, Bool.not_not]

theorem orc1_computes : Computes w (bignumBitwiseOrc1Unsigned w) fun a b => !a || b := by
  intro p q _ _
  rw [bignumBitwiseOrc1Unsigned, bignumBitwiseAndc2_ofInt, bind_eq_bind, bind_some,
    bignumBitwiseNot_ofInt, lnot_bitwise]
  simp only [Bool.not_and, Bool.not_not]

theorem bignumBitwiseXor_ofInt (p q : Int) :
    bignumBitwiseXor w (ofInt w p) (ofInt w q)
      = some (ofInt w (bitwise xor p q)) :=
  defineBitwise_ofInt xor_computes (eqv_computes.congr (by decide))
    (eqv_computes.congr (by decide)) (xor_computes.congr (by decide))
    (self_right (by decide) p) (zero_left (self_right (by decide) q))

theorem bignumBitwiseIor_ofInt (p q : Int) :
    bignumBitwiseIor w (ofInt w p) (ofInt w q)
      = some (ofInt w (bitwise or p q)) :=
  defineBitwise_ofInt ior_computes orc2_computes orc1_computes (nand_computes.congr (by decide))
    (self_right (by decide) p) (zero_left (self_right (by decide) q))

theorem bignumBitwiseNor_ofInt (p q : Int) :
    bignumBitwiseNor w (ofInt w p) (ofInt w q)
      = some (ofInt w (bitwise (fun a b => !(a || b)) p q)) :=
  defineBitwise_ofInt nor_computes (andc1_computes.congr (by decide))
    (andc2_computes.congr (by decide)) (and_computes.congr (by decide))
    (not_right (by decide) p) (zero_left (not_right (by decide) q))

theorem bignumBitwiseEqv_ofInt (p q : Int) :
    bignumBitwiseEqv w (ofInt w p) (ofInt w q)
      = some (ofInt w (bitwise (fun a b => !(xor a b)) p q)) :=
  defineBitwise_ofInt eqv_computes (xor_computes.congr (by decide))
    (xor_computes.congr (by decide)) (eqv_computes.congr (by decide))
    (not_right (by decide) p) (zero_left (not_right (by decide) q))

theorem bignumBitwiseOrc2_ofInt (p q : Int) :
    bignumBitwiseOrc2 w (ofInt w p) (ofInt w q)
      = some (ofInt w (bitwise (fun a b => a || !b) p q)) :=
  defineBitwise_ofInt orc2_computes (ior_computes.congr (by decide))
    (nand_computes.congr (by decide)) (orc1_computes.congr (by decide))
    (ones_right (by decide) p) (zero_left (not_right (by decide) q))

theorem bignumBitwiseOrc1_ofInt (p q : Int) :
    bignumBitwiseOrc1 w (ofInt w p) (ofInt w q)
      = some (ofInt w (bitwise (fun a b => !a || b) p q)) :=
  defineBitwise_ofInt orc1_computes (nand_computes.congr (by decide))
    (ior_computes.congr (by decide)) (orc2_computes.congr (by decide))
    (not_right (by decide) p) (zero_left (ones_right (by decide) q))

theorem bignumBitwiseNand_ofInt (p q : Int) :
    bignumBitwiseNand w (ofInt w p) (ofInt w q)
      = some (ofInt w (bitwise (fun a b => !(a && b)) p q)) :=
  defineBitwise_ofInt nand_computes (orc1_computes.congr (by decide))
    (orc2_computes.congr (by decide)) (ior_computes.congr (by decide))
    (ones_right (by decide) p) (zero_left (ones_right (by decide) q))

end MitScheme
