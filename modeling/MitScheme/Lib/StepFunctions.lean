import Mathlib.Algebra.Ring.Basic
import Mathlib.Data.List.Chain
import Mathlib.Order.WithBot

/-!
# Step functions

A list of steps, each an end point and a height, stands for the function that has the height of
a step up to its end point from the one before, and is zero past the last. Points are told apart
by a key in a linear order.

Steps are reduced if none of them can be left out. Reduced steps are determined by the function
they stand for; and that function is determined by the sums of the heights times the distances
between the points, taken over all places the points can be at.
-/

namespace MitScheme.StepFunctions

open List

variable {ρ P K : Type}

/-- The height the steps begin with. -/
def leading [Zero K] : List (ρ × K) → K
  | [] => 0
  | s :: _ => s.2

/-- The height at some key. -/
def height [Zero K] [LinearOrder P] (key : ρ → P) (x : P) : List (ρ × K) → K
  | [] => 0
  | s :: steps => if x ≤ key s.1 then s.2 else height key x steps

/-- The sum of the heights times the distances between the end points. -/
def total [Ring K] (position : ρ → K) (base : K) : List (ρ × K) → K
  | [] => 0
  | s :: steps => (position s.1 - base) * s.2 + total position (position s.1) steps

/-- The keys increase, neighbours are of different heights, and the last height is not zero. -/
structure Reduced [Zero K] [LinearOrder P] (key : ρ → P) (steps : List (ρ × K)) : Prop where
  increasing : steps.Pairwise fun s t => key s.1 < key t.1
  changing : steps.IsChain fun s t => s.2 ≠ t.2
  ending : ∀ s ∈ steps.getLast?, s.2 ≠ 0

section

variable [Zero K] [LinearOrder P] {key : ρ → P} {s t : ρ × K} {a b steps : List (ρ × K)} {x : P}

theorem reduced_nil : Reduced key ([] : List (ρ × K)) :=
  ⟨.nil, .nil, fun _ h => by cases h⟩

theorem reduced_cons :
    Reduced key (s :: steps)
      ↔ (∀ t ∈ steps, key s.1 < key t.1) ∧ s.2 ≠ leading steps ∧ Reduced key steps := by
  cases steps with
  | nil =>
      constructor
      · intro h
        exact ⟨fun _ ht => absurd ht not_mem_nil, h.ending s rfl, reduced_nil⟩
      · rintro ⟨-, hne, -⟩
        refine ⟨pairwise_singleton _ _, .singleton _, fun u hu => ?_⟩
        cases hu
        exact hne
  | cons t steps =>
      constructor
      · intro h
        obtain ⟨hlt, hincreasing⟩ := pairwise_cons.mp h.increasing
        obtain ⟨hne, hchanging⟩ := isChain_cons_cons.mp h.changing
        exact ⟨hlt, hne, hincreasing, hchanging, h.ending⟩
      · rintro ⟨hlt, hne, h⟩
        exact ⟨pairwise_cons.mpr ⟨hlt, h.increasing⟩,
          isChain_cons_cons.mpr ⟨hne, h.changing⟩, h.ending⟩

theorem height_cons_of_le (h : x ≤ key s.1) : height key x (s :: steps) = s.2 := if_pos h

theorem height_cons_of_lt (h : key s.1 < x) : height key x (s :: steps) = height key x steps :=
  if_neg (not_le_of_gt h)

theorem Reduced.exists_height_ne_zero (h : Reduced key steps) (hne : steps ≠ []) :
    ∃ s ∈ steps, height key (key s.1) steps ≠ 0 := by
  induction steps with
  | nil => exact absurd rfl hne
  | cons t steps ih =>
      obtain ⟨hlt, hchange, hrest⟩ := reduced_cons.mp h
      cases steps with
      | nil =>
          refine ⟨t, mem_singleton_self t, ?_⟩
          rw [height_cons_of_le le_rfl]
          exact hchange
      | cons u steps =>
          obtain ⟨s, hs, hheight⟩ := ih hrest (cons_ne_nil u steps)
          refine ⟨s, mem_cons_of_mem t hs, ?_⟩
          rwa [height_cons_of_lt (hlt s hs)]

theorem Reduced.not_lt_of_height_eq (ha : Reduced key (s :: a))
    (h : ∀ x, key s.1 ≤ x → height key x (s :: a) = height key x (t :: b)) :
    ¬ key s.1 < key t.1 := by
  intro hlt
  obtain ⟨hpoints, hchange, -⟩ := reduced_cons.mp ha
  have hst : s.2 = t.2 := by
    have hs := h (key s.1) le_rfl
    rwa [height_cons_of_le le_rfl, height_cons_of_le hlt.le] at hs
  cases a with
  | nil =>
      -- past its only point the first function is zero, and the second is not yet
      have ht := h (key t.1) hlt.le
      rw [height_cons_of_lt hlt, height_cons_of_le le_rfl] at ht
      exact hchange (hst.trans ht.symm)
  | cons u a =>
      have hu := hpoints u mem_cons_self
      have hx : key s.1 < min (key u.1) (key t.1) := lt_min hu hlt
      have heq := h (min (key u.1) (key t.1)) hx.le
      rw [height_cons_of_lt hx, height_cons_of_le (min_le_left _ _),
        height_cons_of_le (min_le_right _ _)] at heq
      exact hchange (hst.trans heq.symm)

/-- **Reduced steps are determined by their function**, from some bound on. -/
theorem Reduced.ext_above (ha : Reduced key a) (hb : Reduced key b) {m : WithBot P}
    (hma : ∀ s ∈ a, m < key s.1) (hmb : ∀ s ∈ b, m < key s.1)
    (hkey : ∀ s ∈ a, ∀ t ∈ b, key s.1 = key t.1 → s.1 = t.1)
    (h : ∀ x : P, m < x → height key x a = height key x b) : a = b := by
  induction a generalizing b m with
  | nil =>
      by_contra hne
      obtain ⟨s, hs, hheight⟩ := hb.exists_height_ne_zero (Ne.symm hne)
      exact hheight (h _ (hmb s hs)).symm
  | cons s a ih =>
      cases b with
      | nil =>
          obtain ⟨u, hu, hheight⟩ := ha.exists_height_ne_zero (cons_ne_nil s a)
          exact absurd (h _ (hma u hu)) hheight
      | cons t b =>
          have hs := hma s mem_cons_self
          have ht := hmb t mem_cons_self
          have hpoint : key s.1 = key t.1 := by
            refine le_antisymm (le_of_not_gt ?_) (le_of_not_gt ?_)
            · refine hb.not_lt_of_height_eq (b := a) fun x hx => ?_
              exact (h x (lt_of_lt_of_le ht (WithBot.coe_le_coe.mpr hx))).symm
            · refine ha.not_lt_of_height_eq (b := b) fun x hx => ?_
              exact h x (lt_of_lt_of_le hs (WithBot.coe_le_coe.mpr hx))
          have hvalue : s.2 = t.2 := by
            have heq := h _ hs
            rwa [height_cons_of_le le_rfl, height_cons_of_le hpoint.le] at heq
          obtain ⟨hsa, -, hra⟩ := reduced_cons.mp ha
          obtain ⟨htb, -, hrb⟩ := reduced_cons.mp hb
          have hrest : a = b := by
            refine ih hra hrb (m := key s.1) (fun u hu => WithBot.coe_lt_coe.mpr (hsa u hu))
              (fun u hu => ?_) (fun u hu v hv => ?_) fun x hx => ?_
            · rw [hpoint]
              exact WithBot.coe_lt_coe.mpr (htb u hu)
            · exact hkey u (mem_cons_of_mem s hu) v (mem_cons_of_mem t hv)
            · have hlt := WithBot.coe_lt_coe.mp hx
              have heq := h x (hs.trans hx)
              rwa [height_cons_of_lt hlt, height_cons_of_lt (hpoint ▸ hlt)] at heq
          rw [hrest, Prod.ext (hkey s mem_cons_self t mem_cons_self hpoint) hvalue]

theorem Reduced.ext (ha : Reduced key a) (hb : Reduced key b)
    (hkey : ∀ s ∈ a, ∀ t ∈ b, key s.1 = key t.1 → s.1 = t.1)
    (h : ∀ x : P, height key x a = height key x b) : a = b :=
  ha.ext_above hb (m := ⊥) (fun _ _ => WithBot.bot_lt_coe _) (fun _ _ => WithBot.bot_lt_coe _)
    hkey fun x _ => h x

end

section

variable [Ring K] [LinearOrder P] {key : ρ → P} {steps : List (ρ × K)} {x : P}

/-- All points from `x` on at one place, and the points before it at zero. -/
def split (key : ρ → P) (x : P) (p : ρ) : K := if x ≤ key p then 1 else 0

theorem total_split_one (h : ∀ s ∈ steps, x ≤ key s.1) :
    total (split (K := K) key x) 1 steps = 0 := by
  induction steps with
  | nil => rfl
  | cons s steps ih =>
      have hs : split (K := K) key x s.1 = 1 := if_pos (h s mem_cons_self)
      rw [total, hs, ih fun t ht => h t (mem_cons_of_mem s ht), sub_self, zero_mul, add_zero]

/-- **A height is a sum**, taken with the points at two places only. -/
theorem total_split (h : steps.Pairwise fun s t => key s.1 < key t.1) :
    total (split key x) 0 steps = height key x steps := by
  induction steps with
  | nil => rfl
  | cons s steps ih =>
      obtain ⟨hlt, hrest⟩ := pairwise_cons.mp h
      rw [total, height]
      split
      · rename_i hle
        have hs : split (K := K) key x s.1 = 1 := if_pos hle
        rw [hs, total_split_one fun t ht => hle.trans (hlt t ht).le, sub_zero, one_mul, add_zero]
      · rename_i hnle
        have hs : split (K := K) key x s.1 = 0 := if_neg hnle
        rw [hs, ih hrest, sub_self, zero_mul, zero_add]

theorem total_zero (steps : List (ρ × K)) : total (fun _ => (0 : K)) 0 steps = 0 := by
  induction steps with
  | nil => rfl
  | cons s steps ih =>
      rw [total, ih, sub_self, zero_mul, add_zero]

end

end MitScheme.StepFunctions
