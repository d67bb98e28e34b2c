import MitScheme.Lib.Digits
import MitScheme.Microcode.Bignum

/-!
# Addition, subtraction and multiplication are exact

A bignum in the form every function of `bignum.c` returns has no leading zero
digit and no sign on zero, so it is determined by the integer it stands for:
`Bignum.ofInt` is that bignum. Each function is then described by an equation
between such bignums, and the digit loops below it by an equation between the
values of digit lists.

The loops are `Option` valued, so each of these equations also says that no
intermediate result overflows and that no assertion fails.
-/

namespace MitScheme

open DigitList Bignum BignumComparison
open Option (bind_eq_bind bind_some)

variable (w : Word)

theorem Word.one_lt_radix : 1 < w.radix := Nat.lt_of_lt_of_le (by decide) w.radix_ge

/-- The number a list of digits stands for. -/
def Word.value (l : List Nat) : Nat := Nat.ofDigits w.radix l

/-- The bignum of an integer. -/
def Bignum.ofInt (z : Int) : Bignum := ⟨decide (z < 0), Nat.digits w.radix z.natAbs⟩

/-- A bignum of a given sign and magnitude; zero has no sign. -/
def Bignum.ofSign (negative : Bool) (n : Nat) : Bignum :=
  ofInt w (if negative then -(n : Int) else n)

variable {w}

@[simp] theorem value_nil : w.value [] = 0 := rfl

@[simp] theorem value_cons (d : Nat) (l : List Nat) :
    w.value (d :: l) = d + w.radix * w.value l := Nat.ofDigits_cons

@[simp] theorem value_append (l₁ l₂ : List Nat) :
    w.value (l₁ ++ l₂) = w.value l₁ + w.radix ^ l₁.length * w.value l₂ :=
  Nat.ofDigits_append

@[simp] theorem value_digits (n : Nat) : w.value (Nat.digits w.radix n) = n :=
  Nat.ofDigits_digits w.radix n

theorem value_lt {l : List Nat} (h : Below w.radix l) : w.value l < w.radix ^ l.length :=
  h.ofDigits_lt w.one_lt_radix

@[simp] theorem ofInt_zero : ofInt w 0 = makeZero := by
  simp [ofInt, makeZero]

variable {negative n₁ n₂ : Bool} {x y : Nat}

theorem ofSign_eq {n : Nat} :
    ofSign w negative n = ⟨n ≠ 0 && negative, Nat.digits w.radix n⟩ := by
  unfold ofSign ofInt
  cases negative <;> simp [Nat.pos_iff_ne_zero]

theorem ofSign_eq_of_pos {n : Nat} (h : 0 < n) :
    ofSign w negative n = ⟨negative, Nat.digits w.radix n⟩ := by
  rw [ofSign_eq]
  simp [Nat.pos_iff_ne_zero.mp h]

theorem ofInt_eq_ofSign (z : Int) :
    ofInt w z = ofSign w (decide (z < 0)) z.natAbs := by
  congr 1
  by_cases h : z < 0
  · simp only [h, decide_true, ↓reduceIte]; omega
  · simp only [h, decide_false, Bool.false_eq_true, ↓reduceIte]; omega

@[simp] theorem zeroP_ofInt {z : Int} : (ofInt w z).zeroP = decide (z = 0) := by
  unfold Bignum.zeroP Bignum.length ofInt
  by_cases h : z = 0
  · simp [h]
  · have : Nat.digits w.radix z.natAbs ≠ [] :=
      Nat.digits_ne_nil_iff_ne_zero.mpr (by omega)
    simp [h, this]

theorem trim_eq {ds : List Nat} (h : Below w.radix ds) (hne : ds ≠ []) :
    trim ⟨negative, ds⟩ = ofSign w negative (w.value ds) := by
  have hdrop : ds.rdropWhile (· == 0) = Nat.digits w.radix (w.value ds) :=
    rdropWhile_eq_digits w.one_lt_radix h
  have hprefix := List.rdropWhile_prefix (fun d : Nat => d == 0) ds
  rw [hdrop] at hprefix
  rw [ofSign_eq]
  simp only [trim, Bignum.length, hdrop]
  by_cases hlen : (Nat.digits w.radix (w.value ds)).length < ds.length
  · rw [if_pos hlen]
    by_cases h0 : w.value ds = 0
    · simp [h0]
    · have : Nat.digits w.radix (w.value ds) ≠ [] := Nat.digits_ne_nil_iff_ne_zero.mpr h0
      simp [h0, this]
  · have heq : Nat.digits w.radix (w.value ds) = ds :=
      hprefix.eq_of_length (by have := hprefix.length_le; omega)
    have h0 : w.value ds ≠ 0 := by
      rw [← Nat.digits_ne_nil_iff_ne_zero (b := w.radix), heq]
      exact hne
    rw [heq]
    simp [h0]

theorem compareDigits_eq : ∀ {xs ys : List Nat}, xs.length = ys.length →
    Below w.radix xs → Below w.radix ys →
    compareDigits xs ys
      = if w.value xs < w.value ys then less
        else if w.value ys < w.value xs then greater else equal
  | [], [], _, _, _ => by simp [compareDigits]
  | x :: xs, y :: ys, hlen, hx, hy => by
      rw [below_cons] at hx hy
      have ih := compareDigits_eq (by simpa using hlen) hx.2 hy.2
      rw [compareDigits, ih]
      simp only [value_cons]
      generalize w.value xs = X
      generalize w.value ys = Y
      rcases lt_trichotomy X Y with h | h | h
      · have : x + w.radix * X < y + w.radix * Y := by
          have : w.radix * (X + 1) ≤ w.radix * Y := Nat.mul_le_mul_left _ h
          rw [Nat.mul_add] at this
          omega
        simp [h, this]
      · subst h
        simp
      · have : y + w.radix * Y < x + w.radix * X := by
          have : w.radix * (Y + 1) ≤ w.radix * X := Nat.mul_le_mul_left _ h
          rw [Nat.mul_add] at this
          omega
        simp [h, this, Nat.lt_asymm h, Nat.lt_asymm this]

theorem bignumCompareUnsigned_eq :
    bignumCompareUnsigned ⟨n₁, Nat.digits w.radix x⟩ ⟨n₂, Nat.digits w.radix y⟩
      = if x < y then less else if y < x then greater else equal := by
  have hlt : ∀ {a c : Nat}, (Nat.digits w.radix a).length < (Nat.digits w.radix c).length →
      a < c := by
    intro a c h
    by_contra hle
    have := Nat.le_length_digits_le w.radix c a (by omega)
    omega
  unfold bignumCompareUnsigned Bignum.length
  dsimp only
  split
  · rename_i h
    simp [hlt h]
  · split
    · rename_i h
      simp [hlt h, Nat.lt_asymm (hlt h)]
    · rw [compareDigits_eq (by omega) (below_digits w.one_lt_radix x)
        (below_digits w.one_lt_radix y)]
      simp only [value_digits]

/-! ## Addition -/

theorem addCarry_spec : ∀ {xs : List Nat}, Below w.radix xs →
    ∃ rs carry, addCarry w xs = some (rs, carry) ∧ Below w.radix rs
      ∧ rs.length = xs.length ∧ carry ≤ 1
      ∧ w.value rs + w.radix ^ xs.length * carry = w.value xs + 1
  | [], _ => ⟨[], 1, rfl, below_nil, rfl, Nat.le_refl 1, by simp⟩
  | x :: xs, hx => by
      rw [below_cons] at hx
      rw [addCarry, w.nat_eq_of_lt (by omega)]
      dsimp only [bind_eq_bind, bind_some]
      split
      · rename_i h
        exact ⟨(x + 1) :: xs, 0, rfl, below_cons.mpr ⟨h, hx.2⟩, rfl, Nat.zero_le 1,
          by simp only [value_cons]; omega⟩
      · obtain ⟨rs, carry, hrec, hrs, hlen, hc, hval⟩ := addCarry_spec hx.2
        rw [hrec]
        refine ⟨(x + 1 - w.radix) :: rs, carry, rfl, below_cons.mpr ⟨by omega, hrs⟩,
          by simp [hlen], hc, ?_⟩
        simp only [value_cons, List.length_cons, Nat.pow_succ]
        rw [show x + 1 - w.radix = 0 by omega]
        have := congrArg (w.radix * ·) hval
        nlinarith

theorem addDigits_spec : ∀ {xs ys : List Nat} {carry : Nat}, ys.length ≤ xs.length →
    Below w.radix xs → Below w.radix ys → carry ≤ 1 →
    ∃ rs out, addDigits w xs ys carry = some (rs, out) ∧ Below w.radix rs
      ∧ rs.length = xs.length ∧ out ≤ 1
      ∧ w.value rs + w.radix ^ xs.length * out = w.value xs + w.value ys + carry
  | xs, [], carry, _, hx, _, hc => by
      rw [addDigits.eq_def]
      by_cases h : carry = 0
      · subst h
        exact ⟨xs, 0, by simp, hx, rfl, Nat.zero_le 1, by simp⟩
      · obtain rfl : carry = 1 := by omega
        obtain ⟨rs, out, hrec, hrs, hlen, hout, hval⟩ := addCarry_spec hx
        exact ⟨rs, out, by simpa using hrec, hrs, hlen, hout, by simpa using hval⟩
  | x :: xs, y :: ys, carry, hlen, hx, hy, hc => by
      rw [below_cons] at hx hy
      have hlen' : ys.length ≤ xs.length := by simpa using hlen
      rw [addDigits, w.nat_eq_of_lt (by omega)]
      dsimp only [bind_eq_bind, bind_some]
      split
      · rename_i h
        obtain ⟨rs, out, hrec, hrs, hl, hout, hval⟩ :=
          @addDigits_spec _ _ 0 hlen' hx.2 hy.2 (by omega)
        rw [hrec]
        refine ⟨(x + y + carry) :: rs, out, rfl, below_cons.mpr ⟨h, hrs⟩, by simp [hl],
          hout, ?_⟩
        simp only [value_cons, List.length_cons, Nat.pow_succ]
        have := congrArg (w.radix * ·) hval
        nlinarith
      · obtain ⟨rs, out, hrec, hrs, hl, hout, hval⟩ :=
          @addDigits_spec _ _ 1 hlen' hx.2 hy.2 (by omega)
        rw [hrec]
        refine ⟨(x + y + carry - w.radix) :: rs, out, rfl,
          below_cons.mpr ⟨by omega, hrs⟩, by simp [hl], hout, ?_⟩
        simp only [value_cons, List.length_cons, Nat.pow_succ]
        obtain ⟨s, hs⟩ : ∃ s, x + y + carry = w.radix + s := ⟨_, (Nat.add_sub_of_le (by omega)).symm⟩
        rw [hs, Nat.add_sub_cancel_left]
        have := congrArg (w.radix * ·) hval
        nlinarith

theorem bignumAddUnsigned_digits (hx : 0 < x) :
    bignumAddUnsigned w ⟨n₁, Nat.digits w.radix x⟩ ⟨n₂, Nat.digits w.radix y⟩ negative
      = some (ofSign w negative (x + y)) := by
  have key : ∀ {a c : Nat}, (Nat.digits w.radix c).length ≤ (Nat.digits w.radix a).length →
      0 < a + c →
      (addDigits w (Nat.digits w.radix a) (Nat.digits w.radix c) 0).bind (fun p =>
          if p.2 ≠ 0 then some (⟨negative, p.1 ++ [1]⟩ : Bignum)
          else some ⟨p.1.length != 0 && negative, p.1⟩)
        = some (ofSign w negative (a + c)) := by
    intro a c hlen hpos
    obtain ⟨rs, out, hadd, hrs, hrl, hout, hval⟩ :=
      @addDigits_spec w _ _ 0 hlen (below_digits w.one_lt_radix a)
        (below_digits w.one_lt_radix c) (by omega)
    rw [value_digits, value_digits, Nat.add_zero, ← hrl] at hval
    rw [hadd, ofSign_eq_of_pos hpos]
    rcases Nat.eq_zero_or_pos out with h0 | h0
    · -- no carry out: the digits are those of the longer operand's length
      subst h0
      have hrs' : rs = Nat.digits w.radix (a + c) := by
        rw [← hval]
        refine eq_digits_of_pow_le w.one_lt_radix hrs ?_
        intro k hk
        have := pow_length_le w.one_lt_radix (n := a) (k := k) (by omega)
        change w.radix ^ k ≤ w.value rs
        omega
      have hne : rs ≠ [] := by
        rw [hrs']
        exact Nat.digits_ne_nil_iff_ne_zero.mpr (by omega)
      simp [hne, ← hrs']
    · -- a carry out is the new leading digit
      obtain rfl : out = 1 := by omega
      have hrs' : rs ++ [1] = Nat.digits w.radix (a + c) := by
        have hv : w.value (rs ++ [1]) = a + c := by simp [← hval]
        rw [← hv]
        refine eq_digits w.one_lt_radix ?_ (by simp)
        simpa using ⟨hrs, w.one_lt_radix⟩
      simp [hrs']
  unfold bignumAddUnsigned Bignum.length
  dsimp only
  split
  · rw [Nat.add_comm]
    exact key (by omega) (by omega)
  · exact key (by omega) (by omega)

/-! ## Subtraction -/

theorem subtractBorrow_spec : ∀ {xs : List Nat}, Below w.radix xs → 1 ≤ w.value xs →
    ∃ rs, subtractBorrow w xs = some rs ∧ Below w.radix rs ∧ rs.length = xs.length
      ∧ w.value rs + 1 = w.value xs
  | [], _, h => by simp at h
  | x :: xs, hx, h => by
      rw [below_cons] at hx
      have hlim := w.longLimit_eq
      rw [subtractBorrow, w.long_eq (by omega)]
      dsimp only [bind_eq_bind, bind_some]
      rw [value_cons] at h
      split
      · have hpos : 1 ≤ w.value xs := by
          by_contra hz
          rw [show w.value xs = 0 by omega] at h
          omega
        obtain ⟨rs, hrec, hrs, hlen, hval⟩ := subtractBorrow_spec hx.2 hpos
        rw [hrec]
        refine ⟨_ :: rs, rfl,
          below_cons.mpr ⟨by omega, hrs⟩, by simp [hlen], ?_⟩
        rw [value_cons, value_cons, ← hval, Nat.mul_add]
        omega
      · exact ⟨_ :: xs, rfl, below_cons.mpr ⟨by omega, hx.2⟩, rfl,
          by rw [value_cons, value_cons]; omega⟩

theorem subtractDigits_spec : ∀ {xs ys : List Nat} {borrow : Nat}, ys.length ≤ xs.length →
    Below w.radix xs → Below w.radix ys → borrow ≤ 1 →
    w.value ys + borrow ≤ w.value xs →
    ∃ rs, subtractDigits w xs ys borrow = some rs ∧ Below w.radix rs
      ∧ rs.length = xs.length ∧ w.value rs + w.value ys + borrow = w.value xs
  | xs, [], borrow, _, hx, _, hb, hle => by
      rw [subtractDigits.eq_def]
      by_cases h : borrow = 0
      · subst h
        exact ⟨xs, by simp, hx, rfl, by simp⟩
      · obtain rfl : borrow = 1 := by omega
        obtain ⟨rs, hrec, hrs, hlen, hval⟩ := subtractBorrow_spec hx (by omega)
        exact ⟨rs, by simpa using hrec, hrs, hlen, by simpa using hval⟩
  | x :: xs, y :: ys, borrow, hlen, hx, hy, hb, hle => by
      rw [below_cons] at hx hy
      have hlim := w.longLimit_eq
      have hlen' : ys.length ≤ xs.length := by simpa using hlen
      simp only [value_cons] at hle
      rw [subtractDigits, w.long_eq (by omega)]
      dsimp only [bind_eq_bind, bind_some]
      split
      · have hle' : w.value ys + 1 ≤ w.value xs := by
          by_contra hgt
          have : w.radix * w.value xs ≤ w.radix * w.value ys :=
            Nat.mul_le_mul_left _ (by omega)
          omega
        obtain ⟨rs, hrec, hrs, hl, hval⟩ :=
          @subtractDigits_spec _ _ 1 hlen' hx.2 hy.2 (by omega) hle'
        rw [hrec]
        refine ⟨_ :: rs, rfl,
          below_cons.mpr ⟨by omega, hrs⟩, by simp [hl], ?_⟩
        simp only [value_cons, ← hval, Nat.mul_add]
        omega
      · have hle' : w.value ys + 0 ≤ w.value xs := by
          by_contra hgt
          have : w.radix * (w.value xs + 1) ≤ w.radix * w.value ys :=
            Nat.mul_le_mul_left _ (by omega)
          rw [Nat.mul_add] at this
          omega
        obtain ⟨rs, hrec, hrs, hl, hval⟩ :=
          @subtractDigits_spec _ _ 0 hlen' hx.2 hy.2 (by omega) hle'
        rw [hrec]
        refine ⟨_ :: rs, rfl,
          below_cons.mpr ⟨by omega, hrs⟩, by simp [hl], ?_⟩
        simp only [value_cons, ← hval, Nat.mul_add]
        omega

theorem subtractDigits_digits (h : y < x) (negative : Bool) :
    (do let rs ← subtractDigits w (Nat.digits w.radix x) (Nat.digits w.radix y) 0
        some (trim ⟨negative, rs⟩)) = some (ofSign w negative (x - y)) := by
  obtain ⟨rs, hsub, hrs, hlen, hval⟩ :=
    @subtractDigits_spec w _ _ 0 (Nat.le_length_digits_le w.radix y x (by omega))
      (below_digits w.one_lt_radix x) (below_digits w.one_lt_radix y) (by omega)
      (by simpa using Nat.le_of_lt h)
  rw [value_digits, value_digits] at hval
  have hne : rs ≠ [] := by
    rintro rfl
    rw [value_nil] at hval
    omega
  rw [hsub]
  dsimp only [bind_eq_bind, bind_some]
  rw [trim_eq hrs hne]
  congr 2
  omega

theorem bignumSubtractUnsigned_digits :
    bignumSubtractUnsigned w ⟨n₁, Nat.digits w.radix x⟩ ⟨n₂, Nat.digits w.radix y⟩
      = some (ofInt w ((x : Int) - y)) := by
  unfold bignumSubtractUnsigned
  rw [bignumCompareUnsigned_eq]
  rcases lt_trichotomy x y with h | h | h
  · rw [if_pos h]
    dsimp only
    rw [subtractDigits_digits h true, ofSign]
    congr 2
    simp only [↓reduceIte]
    omega
  · subst h
    simp
  · rw [if_neg (Nat.lt_asymm h), if_pos h]
    dsimp only
    rw [subtractDigits_digits h false, ofSign]
    congr 2
    simp only [Bool.false_eq_true, ↓reduceIte]
    omega

/-! ## Multiplication -/

theorem halves_eq (w : Word) (d : Nat) :
    d % w.radixRoot + w.radixRoot * (d / w.radixRoot) = d := Nat.mod_add_div d w.radixRoot

/-- **The maximum values the comment on multiplication promises.** Each product fits, the
digit stored is below the radix, and so is the carry. -/
theorem multiplyStep_spec {r carry : Nat} (hx : x < w.radix) (hy : y < w.radix)
    (hr : r < w.radix) (hc : carry < w.radix) :
    ∃ d out, multiplyStep w x y r carry = some (d, out) ∧ d < w.radix ∧ out < w.radix
      ∧ d + w.radix * out = x * y + r + carry := by
  have hxl := w.mod_radixRoot_lt x
  have hxh := w.div_radixRoot_lt hx
  have hyl := w.mod_radixRoot_lt y
  have hyh := w.div_radixRoot_lt hy
  have hcl := w.mod_radixRoot_lt carry
  have hch := w.div_radixRoot_lt hc
  have hval := halves_eq w x
  have hvaly := halves_eq w y
  have hvalc := halves_eq w carry
  unfold multiplyStep
  simp only [Word.hdLow_eq, Word.hdHigh_eq]
  generalize hpl : r + x % w.radixRoot * (y % w.radixRoot) + carry % w.radixRoot = pl
  have hplfit : pl < 2 * w.radix := by
    have := mul_half_le hxl hyl
    rw [w.radix_eq] at hr ⊢
    omega
  rw [w.nat_eq_of_lt hplfit]
  simp only [bind_eq_bind, bind_some]
  have hplh : pl / w.radixRoot < 2 * w.radixRoot := by
    rw [Nat.div_lt_iff_lt_mul w.radixRoot_pos, Nat.mul_assoc, ← w.radix_eq]
    exact hplfit
  generalize hph : x / w.radixRoot * (y % w.radixRoot) + x % w.radixRoot * (y / w.radixRoot)
    + pl / w.radixRoot + carry / w.radixRoot = ph
  have hphfit : ph < 2 * w.radix := by
    have := mul_half_le hxh hyl
    have := mul_half_le hxl hyh
    rw [w.radix_eq]
    omega
  rw [w.nat_eq_of_lt hphfit]
  simp only [bind_some]
  have hphh : ph / w.radixRoot < 2 * w.radixRoot := by
    rw [Nat.div_lt_iff_lt_mul w.radixRoot_pos, Nat.mul_assoc, ← w.radix_eq]
    exact hphfit
  rw [w.nat_eq_of_lt (by have := mul_half_le hxh hyh; rw [w.radix_eq]; omega)]
  have hdigit := w.hdCons_lt (w.mod_radixRoot_lt ph) (w.mod_radixRoot_lt pl)
  have heq := mul_halves hpl.symm hph.symm
  rw [hval, hvaly, hvalc, ← w.radix_eq] at heq
  refine ⟨_, _, rfl, hdigit, ?_, ?_⟩
  · have hxy := mul_half_le hx hy
    refine Nat.lt_of_mul_lt_mul_left (a := w.radix) ?_
    omega
  · rw [w.hdCons_eq (w.mod_radixRoot_lt pl)]
    exact heq

theorem multiplyInner_spec {x : Nat} (hx : x < w.radix) :
    ∀ {ys rs : List Nat} {carry : Nat}, Below w.radix ys → Below w.radix rs →
      carry < w.radix → ys.length + 1 ≤ rs.length →
      w.value rs + x * w.value ys + carry < w.radix ^ (ys.length + 1) →
      ∃ rs', multiplyInner w x ys rs carry = some rs' ∧ Below w.radix rs'
        ∧ rs'.length = rs.length
        ∧ w.value rs' = w.value rs + x * w.value ys + carry
  | [], r :: rs, carry, _, hrs, hc, _, hlt => by
      rw [below_cons] at hrs
      simp only [List.length_nil, Nat.zero_add, value_cons, value_nil, Nat.mul_zero,
        Nat.add_zero, Nat.pow_one] at hlt
      rw [multiplyInner, w.nat_eq_of_lt (by omega)]
      refine ⟨_, rfl, below_cons.mpr ⟨by omega, hrs.2⟩, rfl, ?_⟩
      simp only [value_cons, value_nil]
      omega
  | y :: ys, r :: rs, carry, hys, hrs, hc, hlen, hlt => by
      rw [below_cons] at hys hrs
      obtain ⟨d, out, hstep, hd, hout, heq⟩ := multiplyStep_spec hx hys.1 hrs.1 hc
      have hrec := @multiplyInner_spec _ hx _ _ out hys.2 hrs.2 hout
        (by simpa using hlen) (by
          simp only [List.length_cons, value_cons] at hlt
          rw [Nat.pow_succ] at hlt
          nlinarith)
      obtain ⟨rs', hin, hb, hl, hval⟩ := hrec
      rw [multiplyInner, hstep]
      dsimp only [bind_eq_bind, bind_some]
      rw [hin]
      refine ⟨_, rfl, below_cons.mpr ⟨hd, hb⟩, by simp [hl], ?_⟩
      simp only [value_cons, hval]
      nlinarith

theorem multiplyOuter_spec {ys : List Nat} (hys : Below w.radix ys) :
    ∀ {xs rs : List Nat}, Below w.radix xs → Below w.radix rs →
      xs.length + ys.length ≤ rs.length → w.value rs < w.radix ^ ys.length →
      ∃ rs', multiplyOuter w ys xs rs = some rs' ∧ Below w.radix rs'
        ∧ rs'.length = rs.length ∧ w.value rs' = w.value rs + w.value xs * w.value ys
  | [], rs, _, hrs, _, _ => ⟨rs, rfl, hrs, rfl, by simp⟩
  | x :: xs, rs, hxs, hrs, hlen, hlt => by
      rw [below_cons] at hxs
      rw [List.length_cons] at hlen
      have hY := value_lt hys
      have hbound : w.value rs + x * w.value ys + 0 < w.radix ^ (ys.length + 1) := by
        rw [Nat.pow_succ]
        nlinarith [hxs.1]
      obtain ⟨rs₁, hin, hb₁, hl₁, hv₁⟩ :=
        multiplyInner_spec hxs.1 hys hrs w.radix_pos (by omega) hbound
      -- the first digit is final; what follows it stays below one more power
      obtain ⟨r, rs₂, rfl⟩ : ∃ r rs₂, rs₁ = r :: rs₂ := by
        cases rs₁ with
        | nil => simp at hl₁; omega
        | cons r rs₂ => exact ⟨r, rs₂, rfl⟩
      rw [below_cons] at hb₁
      rw [value_cons] at hv₁
      have hlt₂ : w.value rs₂ < w.radix ^ ys.length := by
        rw [Nat.pow_succ'] at hbound
        refine Nat.lt_of_mul_lt_mul_left (a := w.radix) ?_
        omega
      obtain ⟨rs₃, hout, hb₃, hl₃, hv₃⟩ := multiplyOuter_spec hys hxs.2 hb₁.2
        (by simp only [List.length_cons] at hl₁; omega) hlt₂
      rw [multiplyOuter, hin]
      dsimp only [bind_eq_bind, bind_some]
      rw [hout]
      refine ⟨r :: rs₃, rfl, below_cons.mpr ⟨hb₁.1, hb₃⟩, by simp_all, ?_⟩
      rw [value_cons, value_cons]
      nlinarith

theorem bignumMultiplyUnsigned_digits (hx : 0 < x) (hy : 0 < y) :
    bignumMultiplyUnsigned w ⟨n₁, Nat.digits w.radix x⟩ ⟨n₂, Nat.digits w.radix y⟩ negative
      = some (ofSign w negative (x * y)) := by
  have key : ∀ {a c : Nat}, 0 < a →
      (do let rs ← multiplyOuter w (Nat.digits w.radix c) (Nat.digits w.radix a)
            (List.replicate
              ((Nat.digits w.radix a).length + (Nat.digits w.radix c).length) 0)
          some (trim ⟨negative, rs⟩)) = some (ofSign w negative (a * c)) := by
    intro a c ha
    have hzero : w.value (List.replicate
        ((Nat.digits w.radix a).length + (Nat.digits w.radix c).length) 0) = 0 :=
      Nat.ofDigits_replicate_zero
    obtain ⟨rs, hmul, hrs, hlen, hval⟩ := multiplyOuter_spec
      (below_digits w.one_lt_radix c) (below_digits w.one_lt_radix a)
      (below_replicate_zero w.radix_pos _) (List.length_replicate).ge
      (by rw [hzero]; exact Nat.pow_pos w.radix_pos)
    rw [hzero, value_digits, value_digits, Nat.zero_add] at hval
    have hne : rs ≠ [] := by
      rintro rfl
      have : Nat.digits w.radix a ≠ [] := Nat.digits_ne_nil_iff_ne_zero.mpr (by omega)
      have := List.length_pos_iff.mpr this
      simp at hlen
      omega
    rw [hmul]
    dsimp only [bind_eq_bind, bind_some]
    rw [trim_eq hrs hne, hval]
  unfold bignumMultiplyUnsigned Bignum.length
  dsimp only
  split
  · rw [Nat.mul_comm]
    exact key hy
  · exact key hx

theorem scaleUpDigits_spec {factor : Nat} (hf : factor < w.radixRoot) :
    ∀ {ds : List Nat} {carry : Nat}, Below w.radix ds → carry < w.radixRoot →
      ∃ rs out, scaleUpDigits w factor ds carry = some (rs, out) ∧ Below w.radix rs
        ∧ rs.length = ds.length
        ∧ w.value rs + w.radix ^ ds.length * out = factor * w.value ds + carry
  | [], carry, _, _ => ⟨[], carry, rfl, below_nil, rfl, by simp⟩
  | d :: ds, carry, hds, hc => by
      rw [below_cons] at hds
      have hdl := w.mod_radixRoot_lt d
      have hdh := w.div_radixRoot_lt hds.1
      have hcl : carry % w.radixRoot = carry := Nat.mod_eq_of_lt hc
      have hch : carry / w.radixRoot = 0 := Nat.div_eq_of_lt hc
      rw [scaleUpDigits]
      simp only [Word.hdLow_eq, Word.hdHigh_eq, hcl, hch]
      generalize hpl : factor * (d % w.radixRoot) + carry = pl
      have hplfit : pl < w.radix := by
        have := mul_half_le hf hdl
        rw [w.radix_eq]
        omega
      rw [w.nat_eq_of_lt (by omega)]
      dsimp only [bind_eq_bind, bind_some]
      have hplh := w.div_radixRoot_lt hplfit
      generalize hph : factor * (d / w.radixRoot) + pl / w.radixRoot + 0 = ph
      have hphfit : ph < w.radix := by
        have := mul_half_le hf hdh
        rw [w.radix_eq]
        omega
      rw [w.nat_eq_of_lt (by omega)]
      dsimp only [bind_some]
      obtain ⟨rs, out, hrec, hrs, hlen, hval⟩ :=
        scaleUpDigits_spec hf hds.2 (w.div_radixRoot_lt hphfit)
      rw [hrec]
      refine ⟨_, out, rfl, below_cons.mpr ⟨w.hdCons_lt (w.mod_radixRoot_lt ph)
        (w.mod_radixRoot_lt pl), hrs⟩, by simp [hlen], ?_⟩
      -- a factor below the radix root has no high half
      have heq := @mul_halves w.radixRoot (d % w.radixRoot) (d / w.radixRoot) factor 0 0 carry 0
        pl ph (by rw [← hpl]; ring) (by rw [← hph]; ring)
      rw [halves_eq, ← w.radix_eq] at heq
      rw [value_cons, value_cons, w.hdCons_eq (w.mod_radixRoot_lt pl), List.length_cons,
        Nat.pow_succ]
      have := congrArg (w.radix * ·) hval
      nlinarith

theorem bignumMultiplyUnsignedSmallFactor_digits (hy : 1 < y) (hyr : y < w.radixRoot) :
    bignumMultiplyUnsignedSmallFactor w ⟨n₁, Nat.digits w.radix x⟩ y negative
      = some (ofSign w negative (x * y)) := by
  have hbelow : Below w.radix (Nat.digits w.radix x ++ [0]) := by
    simpa using ⟨below_digits w.one_lt_radix x, w.radix_pos⟩
  have hx : w.value (Nat.digits w.radix x ++ [0]) = x := by simp
  obtain ⟨rs, out, hscale, hrs, hlen, hval⟩ :=
    scaleUpDigits_spec hyr hbelow w.radixRoot_pos
  rw [hx, Nat.add_zero] at hval
  -- one digit more than `x` has is enough: no carry is left over
  have hout : out = 0 := by
    have hxlt : x < w.radix ^ (Nat.digits w.radix x).length :=
      Nat.lt_base_pow_length_digits w.one_lt_radix
    have hR : w.radixRoot ≤ w.radix := by
      rw [w.radix_eq]
      exact Nat.le_mul_of_pos_left _ w.radixRoot_pos
    by_contra hne
    have : w.radix ^ (Nat.digits w.radix x ++ [0]).length
        ≤ w.radix ^ (Nat.digits w.radix x ++ [0]).length * out :=
      Nat.le_mul_of_pos_right _ (Nat.pos_of_ne_zero hne)
    have hxy : y * x < w.radix ^ (Nat.digits w.radix x ++ [0]).length := by
      rw [List.length_append, List.length_singleton, Nat.mul_comm]
      exact Nat.mul_lt_mul_of_lt_of_le hxlt (by omega) (by omega)
    omega
  have hne : rs ≠ [] := by
    rintro rfl
    simp at hlen
  unfold bignumMultiplyUnsignedSmallFactor bignumDestructiveScaleUp
  rw [hscale, hout]
  simp only [hy, hyr, and_self, guard, if_true, bind_eq_bind, Option.pure_def,
    bind_some]
  rw [trim_eq hrs hne]
  rw [hout, Nat.mul_zero, Nat.add_zero] at hval
  rw [hval, Nat.mul_comm]

/-! ## Signed addition, subtraction and multiplication -/

theorem bignumAdd_ofInt (a b : Int) :
    bignumAdd w (ofInt w a) (ofInt w b) = some (ofInt w (a + b)) := by
  unfold bignumAdd
  simp only [zeroP_ofInt, decide_eq_true_eq]
  split
  · rename_i h; rw [h, Int.zero_add]
  split
  · rename_i h; rw [h, Int.add_zero]
  simp only [ofInt, decide_eq_true_eq]
  by_cases hna : a < 0 <;> by_cases hnb : b < 0 <;> simp only [hna, hnb, ↓reduceIte]
  · rw [bignumAddUnsigned_digits (by omega), ofSign]
    congr 2
    simp only [↓reduceIte]
    omega
  · rw [bignumSubtractUnsigned_digits]
    congr 2
    omega
  · rw [bignumSubtractUnsigned_digits]
    congr 2
    omega
  · rw [bignumAddUnsigned_digits (by omega), ofSign]
    congr 2
    simp only [Bool.false_eq_true, ↓reduceIte]
    omega

theorem bignumNegate_ofInt (a : Int) :
    bignumNegate (ofInt w a) = ofInt w (-a) := by
  unfold bignumNegate
  simp only [zeroP_ofInt, decide_eq_true_eq]
  split
  · rename_i h; rw [h, Int.neg_zero]
  · simp only [Bignum.newSign, ofInt, Int.natAbs_neg]
    by_cases hn : a < 0 <;> simp [hn] <;> omega

theorem bignumSubtract_ofInt (a b : Int) :
    bignumSubtract w (ofInt w a) (ofInt w b)
      = some (ofInt w (a - b)) := by
  unfold bignumSubtract
  simp only [zeroP_ofInt, decide_eq_true_eq]
  split
  · rename_i ha
    split
    · rename_i hb; rw [ha, hb, Int.sub_zero]
    · rename_i hb
      have := bignumNegate_ofInt (w := w) b
      simp only [bignumNegate, zeroP_ofInt, decide_eq_true_eq, if_neg hb] at this
      rw [this, ha, Int.zero_sub]
  split
  · rename_i h; rw [h, Int.sub_zero]
  simp only [ofInt, decide_eq_true_eq]
  by_cases hna : a < 0 <;> by_cases hnb : b < 0 <;> simp only [hna, hnb, ↓reduceIte]
  · rw [bignumSubtractUnsigned_digits]
    congr 2
    omega
  · rw [bignumAddUnsigned_digits (by omega), ofSign]
    congr 2
    simp only [↓reduceIte]
    omega
  · rw [bignumAddUnsigned_digits (by omega), ofSign]
    congr 2
    simp only [Bool.false_eq_true, ↓reduceIte]
    omega
  · rw [bignumSubtractUnsigned_digits]
    congr 2
    omega

theorem ref_ofInt_of_length_one {a : Int} (h : (ofInt w a).length = 1) :
    (ofInt w a).ref 0 = a.natAbs ∧ 0 < a.natAbs ∧ a.natAbs < w.radix := by
  have h1 := Nat.lt_digits_length_iff (k := 0) w.one_lt_radix a.natAbs
  have h2 := Nat.digits_length_le_iff (k := 1) w.one_lt_radix a.natAbs
  simp only [Nat.pow_zero, Nat.pow_one] at h1 h2
  have h' : (Nat.digits w.radix a.natAbs).length = 1 := h
  have hpos : 0 < a.natAbs := by omega
  have hlt : a.natAbs < w.radix := by omega
  refine ⟨?_, hpos, hlt⟩
  unfold Bignum.ref ofInt
  rw [Nat.digits_of_lt w.radix a.natAbs (by omega) hlt]
  rfl

theorem decide_mul_neg {a b : Int} (ha : a ≠ 0) (hb : b ≠ 0) :
    decide (a * b < 0)
      = if decide (a < 0) then !decide (b < 0) else decide (b < 0) := by
  rcases lt_or_gt_of_ne ha with h1 | h1 <;> rcases lt_or_gt_of_ne hb with h2 | h2
  · have := Int.mul_pos_of_neg_of_neg h1 h2
    simp [h1, h2, this.le]
  · have := Int.mul_neg_of_neg_of_pos h1 h2
    simp [h1, h2.le, this]
  · have := Int.mul_neg_of_pos_of_neg h1 h2
    simp [h2, h1.le, this]
  · have := Int.mul_pos h1 h2
    simp [Int.not_lt.mpr h1.le, Int.not_lt.mpr h2.le, Int.not_lt.mpr this.le]

theorem bignumMultiply_ofInt (a b : Int) :
    bignumMultiply w (ofInt w a) (ofInt w b)
      = some (ofInt w (a * b)) := by
  unfold bignumMultiply
  simp only [zeroP_ofInt, decide_eq_true_eq]
  split
  · rename_i h; rw [h, Int.zero_mul]
  split
  · rename_i h; rw [h, Int.mul_zero]
  rename_i ha hb
  have hna : 0 < a.natAbs := Int.natAbs_pos.mpr ha
  have hnb : 0 < b.natAbs := Int.natAbs_pos.mpr hb
  have hsign : ofInt w (a * b)
      = ofSign w (if (ofInt w a).negative then !(ofInt w b).negative
          else (ofInt w b).negative) (a.natAbs * b.natAbs) := by
    rw [ofInt_eq_ofSign, Int.natAbs_mul, decide_mul_neg ha hb]
    rfl
  rw [hsign]
  generalize (if (ofInt w a).negative then !(ofInt w b).negative
    else (ofInt w b).negative) = negative
  split
  · rename_i h
    obtain ⟨href, _, _⟩ := ref_ofInt_of_length_one h.1
    rw [href] at h
    rw [h.2, Nat.one_mul, ofSign_eq_of_pos hnb]
    rfl
  split
  · rename_i h1 h
    obtain ⟨href, h0, hlt⟩ := ref_ofInt_of_length_one h.1
    rw [href] at h h1 ⊢
    rw [Nat.mul_comm]
    exact bignumMultiplyUnsignedSmallFactor_digits (by omega) h.2
  split
  · rename_i h
    obtain ⟨href, _, _⟩ := ref_ofInt_of_length_one h.1
    rw [href] at h
    rw [h.2, Nat.mul_one, ofSign_eq_of_pos hna]
    rfl
  split
  · rename_i h1 h
    obtain ⟨href, h0, hlt⟩ := ref_ofInt_of_length_one h.1
    rw [href] at h h1 ⊢
    exact bignumMultiplyUnsignedSmallFactor_digits (by omega) h.2
  · exact bignumMultiplyUnsigned_digits hna hnb

end MitScheme
