import Mathlib.Data.List.DropRight
import Mathlib.Data.List.GetD
import Mathlib.Data.Nat.Digits.Lemmas

/-!
# Positional arithmetic on lists of digits

What any multiple-precision package needs of `Nat.ofDigits` beyond Mathlib: lists
whose entries are all below the base, the list a number is left with once leading
zeros are dropped, and the estimate behind the quotient guess of long division.
Nothing here depends on a machine word or on how a package stores its digits.
-/

namespace DigitList

open List

variable {b : Nat}

/-- Every entry is a digit in base `b`. -/
def Below (b : Nat) (l : List Nat) : Prop := ∀ d ∈ l, d < b

instance (l : List Nat) : Decidable (Below b l) := inferInstanceAs (Decidable (∀ d ∈ l, d < b))

@[simp] theorem below_nil : Below b [] := by intro d hd; simp at hd

variable {l : List Nat}

@[simp] theorem below_cons {d : Nat} :
    Below b (d :: l) ↔ d < b ∧ Below b l := by
  simp [Below]

@[simp] theorem below_append {l₁ l₂ : List Nat} :
    Below b (l₁ ++ l₂) ↔ Below b l₁ ∧ Below b l₂ := by
  simp only [Below, mem_append]
  constructor
  · exact fun h => ⟨fun d hd => h d (Or.inl hd), fun d hd => h d (Or.inr hd)⟩
  · rintro ⟨h₁, h₂⟩ d (hd | hd)
    · exact h₁ d hd
    · exact h₂ d hd

theorem below_replicate_zero (hb : 0 < b) (n : Nat) : Below b (List.replicate n 0) := by
  intro d hd
  rw [eq_of_mem_replicate hd]
  exact hb

theorem below_digits (hb : 1 < b) (n : Nat) : Below b (Nat.digits b n) :=
  fun _ hd => Nat.digits_lt_base hb hd

theorem Below.take (h : Below b l) (n : Nat) : Below b (l.take n) :=
  fun d hd => h d (mem_of_mem_take hd)

theorem Below.drop (h : Below b l) (n : Nat) : Below b (l.drop n) :=
  fun d hd => h d (mem_of_mem_drop hd)

theorem Below.getD (h : Below b l) (hb : 0 < b) (n : Nat) :
    l.getD n 0 < b := by
  rcases lt_or_ge n l.length with hn | hn
  · rw [getD_eq_getElem _ _ hn]
    exact h _ (getElem_mem hn)
  · rw [getD_eq_default _ _ hn]
    exact hb

theorem Below.ofDigits_lt (h : Below b l) (hb : 1 < b) :
    Nat.ofDigits b l < b ^ l.length :=
  Nat.ofDigits_lt_base_pow_length hb h

theorem add_mul_lt {a m k p : Nat} (ha : a < k) (hm : m < p) : a + m * k < p * k :=
  calc a + m * k < k + m * k := Nat.add_lt_add_right ha _
    _ = (m + 1) * k := by ring
    _ ≤ p * k := Nat.mul_le_mul_right k hm

theorem ofDigits_take_drop (l : List Nat) (n : Nat) (hn : n ≤ l.length) :
    Nat.ofDigits b l
      = Nat.ofDigits b (l.take n) + b ^ n * Nat.ofDigits b (l.drop n) := by
  conv_lhs => rw [← take_append_drop n l]
  rw [Nat.ofDigits_append, length_take, Nat.min_eq_left hn]

/-! ## Dropping leading zeros -/

theorem ofDigits_rdropWhile (l : List Nat) :
    Nat.ofDigits b (l.rdropWhile (· == 0)) = Nat.ofDigits b l := by
  induction l using List.reverseRecOn with
  | nil => simp
  | append_singleton l d ih =>
      by_cases hd : d = 0
      · rw [rdropWhile_concat_pos _ _ _ (by simp [hd]), ih, hd, Nat.ofDigits_append_zero]
      · rw [rdropWhile_concat_neg _ _ _ (by simp [hd])]

theorem rdropWhile_eq_digits (hb : 1 < b) (hl : Below b l) :
    l.rdropWhile (· == 0) = Nat.digits b (Nat.ofDigits b l) := by
  rw [← ofDigits_rdropWhile l]
  refine (Nat.digits_ofDigits b hb _ ?_ ?_).symm
  · intro d hd
    exact hl d ((List.rdropWhile_prefix _ _).subset hd)
  · intro hne
    simpa using rdropWhile_last_not _ _ hne

theorem eq_digits (hb : 1 < b) (hl : Below b l)
    (hlast : ∀ h : l ≠ [], l.getLast h ≠ 0) : l = Nat.digits b (Nat.ofDigits b l) :=
  (Nat.digits_ofDigits b hb l hl hlast).symm

theorem eq_digits_of_pow_le (hb : 1 < b) (hl : Below b l)
    (h : ∀ k, l.length = k + 1 → b ^ k ≤ Nat.ofDigits b l) :
    l = Nat.digits b (Nat.ofDigits b l) := by
  refine eq_digits hb hl ?_
  intro hne hzero
  obtain ⟨init, d, rfl⟩ := (eq_nil_or_concat l).resolve_left hne
  rw [concat_eq_append] at *
  have hd : d = 0 := by simpa using hzero
  have hlt := (below_append.mp hl).1.ofDigits_lt hb
  have hge := h init.length (by simp)
  rw [hd, Nat.ofDigits_append_zero] at hge
  omega

theorem pow_length_le (hb : 1 < b) {n k : Nat} (h : (Nat.digits b n).length = k + 1) :
    b ^ k ≤ n := by
  exact (Nat.lt_digits_length_iff hb n).mp (by omega)

/-! ## Products by halves

A digit in base `R * R` is a pair of half digits in base `R`, and a product of two
digits is put together from the four products of halves.
-/

theorem mul_half_le {R x y : Nat} (hx : x < R) (hy : y < R) : x * y + 2 * R ≤ R * R + 1 := by
  nlinarith

theorem mul_halves {R xl xh yl yh r cl ch pl ph : Nat} (hpl : pl = r + xl * yl + cl)
    (hph : ph = xh * yl + xl * yh + pl / R + ch) :
    ph % R * R + pl % R + R * R * (xh * yh + ph / R)
      = (xl + R * xh) * (yl + R * yh) + r + (cl + R * ch) := by
  have hl := Nat.mod_add_div pl R
  have hh := congrArg (R * ·) (Nat.mod_add_div ph R)
  generalize pl / R = plh at hl hph
  generalize ph / R = phh at hh ⊢
  subst hph hpl
  linarith

/-! ## The quotient guess of long division

`U` is divided by `V`. Of `U` only the leading part `T` is looked at, of `V` only
`D`; both parts stand over the same scale `S`.
-/

theorem div_lt_of_guess_gt {g D T S U V : Nat} (hV : D * S ≤ V) (hU : U < (T + 1) * S)
    (h : T < g * D) : U / V < g := by
  have hgV : U < g * V :=
    calc U < (T + 1) * S := hU
      _ ≤ g * D * S := Nat.mul_le_mul_right S h
      _ = g * (D * S) := Nat.mul_assoc g D S
      _ ≤ g * V := Nat.mul_le_mul_left g hV
  exact Nat.div_lt_of_lt_mul (by rwa [Nat.mul_comm])

theorem guess_le_div_add_one {g D T S U V : Nat} (hV : V ≤ (D + 1) * S) (hU : T * S ≤ U)
    (hS : g * S ≤ V) (hpos : 0 < V) (h : g * D ≤ T) : g ≤ U / V + 1 := by
  have hgV : g * V ≤ U + V :=
    calc g * V ≤ g * ((D + 1) * S) := Nat.mul_le_mul_left g hV
      _ = g * D * S + g * S := by ring
      _ ≤ T * S + V := Nat.add_le_add (Nat.mul_le_mul_right S h) hS
      _ ≤ U + V := Nat.add_le_add_right hU V
  have : g ≤ (U + V) / V := (Nat.le_div_iff_mul_le hpos).mpr hgV
  rwa [Nat.add_div_right U hpos] at this

end DigitList
